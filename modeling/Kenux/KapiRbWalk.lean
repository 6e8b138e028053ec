import Kenux.KapiRbErase

/-!
Searches and walks over the tree of `kapi_rbtree.c`. In every search tree with its parent
links, whatever its colours, `kapi_rb_find` finds a node equal to the key if there is one, and
`kapi_rb_first` and `kapi_rb_next` go through the nodes in their order (`kapi_rb_walk`).
-/
namespace Kenux.KapiRbtree
open Kenux.Trees Kenux.TreeHeap

def findLoop (cmp : Nat → Nat → Int) (key : Nat) (t : Rbtree) : Nat → Nat → Option Nat
  | 0, _ => none
  | fuel+1, node =>
    if node ≠ 0 then
      if cmp key node < 0 then findLoop cmp key t fuel (t.heap node).left
      else if cmp key node > 0 then findLoop cmp key t fuel (t.heap node).right
      else some node
    else some 0

section
variable (fuel : Nat) (t : Rbtree)

def kapiRbFind (cmp : Nat → Nat → Int) (key : Nat) : Option Nat := findLoop cmp key t fuel t.root

def kapiRbFirst : Option Nat := if t.root = 0 then some 0 else leftmost t fuel t.root

/-- The loop of `kapi_rb_next` towards the root. -/
def climb : Nat → Nat → Nat → Option Nat
  | 0, _, _ => none
  | fuel+1, node, next =>
    if next ≠ 0 ∧ node = (t.heap next).right then climb fuel next (t.heap next).parent else some next

def kapiRbNext (node : Nat) : Option Nat := do
  let n ← t.load node
  if n.right ≠ 0 then leftmost t fuel n.right else climb t fuel node n.parent

/-- The nodes from `node` on, up to `NULL`. -/
def walk : Nat → Nat → Option (List Nat)
  | 0, _ => none
  | n+1, node => if node = 0 then some [] else do
    let rest ← walk n (← kapiRbNext fuel t node)
    some (node :: rest)

end

section
open Kenux.Trees.ColorTree
variable {t : Rbtree} {fs : List (Frame Nat)} {u l r : ColorTree Nat} {c : Color} {x fuel : Nat} {parent : Nat}

private theorem leftmost_head (rep : Rep 0 t.heap parent u) (present : u ≠ .nil) (enough : u.toList.length ≤ fuel)
    (late : List Nat) : leftmost t fuel (ptr 0 u) = some ((u.toList ++ late).headD 0) := by
  obtain ⟨gs,d,y,v,run,rfl,first⟩ := leftmost_first rep present enough
  rw [run,toList_plug,first]
  rfl

theorem climb_spec (focus : At t fs u) (present : ptr 0 u ≠ 0) (enough : fs.length < fuel) :
    climb t fuel (ptr 0 u) (top 0 fs) = some ((after fs).headD 0) := by
  induction fs generalizing u fuel with
  | nil =>
    obtain ⟨n,rfl⟩ := Nat.exists_eq_succ_of_ne_zero (Nat.ne_zero_of_lt enough)
    rfl
  | cons f fs ih =>
    obtain ⟨n,rfl⟩ := Nat.exists_eq_succ_of_ne_zero (Nat.ne_zero_of_lt enough)
    obtain ⟨someF,mine,other⟩ := held_of_focus focus present
    obtain ⟨-,record⟩ := focus.frameRecord
    have up := ih (focus_up.mp focus) (by simpa [Frame.fill] using someF) (Nat.lt_of_succ_lt_succ enough)
    obtain ⟨side,color,cell,sibling⟩ := f
    cases side with
    | left => exact if_neg (fun both => other both.2.symm)
    | right => simpa [climb,after,someF,record,Node.make,Frame.fill] using up

theorem next_spec (focus : At t fs (.node c l x r)) (enough : (plug fs (.node c l x r)).toList.length ≤ fuel) :
    kapiRbNext fuel t x = some ((r.toList ++ after fs).headD 0) := by
  obtain ⟨someX,record,-,right⟩ := focus.tree
  have frames := length_frames_le fs (.node c l x r)
  simp only [toList_plug,toList,List.length_append,List.length_cons] at enough frames
  simp only [kapiRbNext,load_of_ne someX,record,Option.bind_eq_bind,Option.bind_some]
  by_cases last : r = .nil
  · subst last
    simpa [ptr,toList] using climb_spec focus someX (by omega)
  · rw [if_pos ((rep_ptr_eq_nil right).not.mpr last)]
    exact leftmost_head right last (by omega) _

theorem walk_spec (focus : At t [] u) (enough : u.toList.length ≤ fuel) {early late : List Nat} (split : u.toList = early ++ late) :
    walk fuel t (late.length + 1) (late.headD 0) = some late := by
  induction late generalizing early with
  | nil => rfl
  | cons x late ih =>
    have rest := ih (split.trans (List.append_cons early x late))
    have member : x ∈ u.toList := by simp [split]
    have someX := rep_ne_nil focus.tree x member
    have distinct := focus.distinct
    obtain ⟨fs,c,l,r,rfl⟩ := exists_plug_of_mem member
    have next := next_spec (focus_plug.mp focus) enough
    have same : early ++ x :: late = (before fs ++ l.toList) ++ x :: (r.toList ++ after fs) := by
      rw [← split,toList_plug]
      simp [toList]
    rw [plug,split,List.nodup_middle,List.nodup_cons,List.mem_append,not_or] at distinct
    obtain ⟨-,-,behind⟩ := (List.append_cons_inj_of_notMem distinct.1.1 distinct.1.2).mp same
    rw [← behind] at next
    rw [List.headD_cons,List.length_cons,walk,if_neg someX]
    simp only [next,rest,Option.bind_eq_bind,Option.bind_some]

variable {cmp : Nat → Nat → Int} (key : Nat)

theorem findLoop_spec (order : TotalPreorder cmp) (rep : Rep 0 t.heap parent u) (sorted : Sorted cmp u)
    (enough : u.toList.length < fuel) : ∃ y, findLoop cmp key t fuel (ptr 0 u) = some y ∧
      (y ∈ u.toList ∧ cmp key y = 0 ∨ y = 0 ∧ ∀ x ∈ u.toList, cmp key x ≠ 0) := by
  induction u generalizing parent fuel with
  | nil =>
    obtain ⟨n,rfl⟩ := Nat.exists_eq_succ_of_ne_zero (Nat.ne_zero_of_lt enough)
    exact ⟨0,rfl,.inr ⟨rfl,nofun⟩⟩
  | node c l x r left right =>
    obtain ⟨n,rfl⟩ := Nat.exists_eq_succ_of_ne_zero (Nat.ne_zero_of_lt enough)
    obtain ⟨someX,record,repL,repR⟩ := rep
    simp only [Sorted,toList,List.length_append,List.length_cons,List.pairwise_append,List.pairwise_cons] at sorted enough
    obtain ⟨sortedL,⟨above,sortedR⟩,below⟩ := sorted
    change ∃ y, findLoop cmp key t (n+1) x = some y ∧ _
    simp only [findLoop,if_pos someX,record,toList,List.forall_mem_append,List.forall_mem_cons]
    rcases Int.lt_trichotomy (cmp key x) 0 with less | equal | more
    · rw [if_pos less]
      obtain ⟨y,found,answer⟩ := left repL sortedL (show l.toList.length < n by omega)
      refine ⟨y,found,answer.imp (And.imp_left (List.mem_append_left _))
        (And.imp_right fun none => ⟨none,by omega,fun z member zero => ?_⟩)⟩
      have back := order.trans x z key (above z member) (order.le_of_not_lt (by omega))
      have forth := (order.swap key x).mp less
      omega
    · exact ⟨x,by simp [equal],.inl ⟨by simp,equal⟩⟩
    · rw [if_neg (by omega),if_pos more]
      obtain ⟨y,found,answer⟩ := right repR sortedR (show r.toList.length < n by omega)
      refine ⟨y,found,answer.imp (And.imp_left fun inside => List.mem_append_right _ (.tail x inside))
        (And.imp_right fun none => ⟨fun z member zero => ?_,by omega,none⟩)⟩
      have back := order.trans key z x (by omega) (below z member x (by simp))
      omega

/-- In a search tree a key is found if it is there, and the walk from the first node visits every node once, in order. -/
theorem kapi_rb_walk (cmp : Nat → Nat → Int) (order : TotalPreorder cmp) (t : Rbtree) (u : ColorTree Nat) (focus : At t [] u)
    (sorted : Sorted cmp u) (fuel : Nat) (enough : u.toList.length < fuel) :
    (∀ key, ∃ y, kapiRbFind fuel t cmp key = some y ∧ (y ≠ 0 → y ∈ u.toList ∧ cmp key y = 0) ∧
      (y ≠ 0 ↔ ∃ x ∈ u.toList, cmp key x = 0)) ∧
    (kapiRbFirst fuel t).bind (walk fuel t (u.toList.length + 1)) = some u.toList ∧ u.toList.Nodup ∧ Sorted cmp u := by
  have root : t.root = ptr 0 u := focus.rootIs
  refine ⟨fun key => ?_,?_,focus.distinct,sorted⟩
  · obtain ⟨y,found,⟨member,equal⟩ | ⟨rfl,none⟩⟩ := findLoop_spec key order focus.tree sorted enough
    · have someY := rep_ne_nil focus.tree y member
      exact ⟨y,by rwa [kapiRbFind,root],fun _ => ⟨member,equal⟩,iff_of_true someY ⟨y,member,equal⟩⟩
    · refine ⟨0,by rwa [kapiRbFind,root],absurd rfl,iff_of_false (absurd rfl) ?_⟩
      rintro ⟨x,member,equal⟩
      exact none x member equal
  · have whole := walk_spec focus (Nat.le_of_lt enough) (List.nil_append _).symm
    rw [kapiRbFirst,root]
    by_cases empty : u = .nil
    · subst empty
      exact whole
    · rw [if_neg ((rep_ptr_eq_nil focus.tree).not.mpr empty),leftmost_head focus.tree empty (Nat.le_of_lt enough) [],List.append_nil]
      exact whole

theorem kapi_rb_walk_three :
    let t : Rbtree := ⟨fun i => if i = 2 then ⟨0,1,3,.black⟩ else ⟨2,0,0,.red⟩,2⟩
    (kapiRbFirst 4 t).bind (walk 4 t 4) = some [1,2,3] :=
  (kapi_rb_walk byAddress byAddress_total _ (.node .black (.node .red .nil 1 .nil) 2 (.node .red .nil 3 .nil))
    ⟨⟨by decide,rfl,⟨by decide,rfl,trivial,trivial⟩,by decide,rfl,trivial,trivial⟩,trivial,rfl,by decide⟩
    (by unfold Sorted; decide) 4 (by decide)).2.1

theorem findLoop_of_depth {more : Nat} (rep : Rep 0 t.heap parent u) (enough : u.depth < fuel) (le : fuel ≤ more) :
    findLoop cmp key t fuel (ptr 0 u) = findLoop cmp key t more (ptr 0 u) := by
  induction u generalizing parent fuel more with
  | nil =>
    obtain ⟨n,rfl⟩ := Nat.exists_eq_succ_of_ne_zero (Nat.ne_zero_of_lt enough)
    obtain ⟨m,rfl⟩ := Nat.exists_eq_succ_of_ne_zero (Nat.ne_zero_of_lt le)
    rfl
  | node c l x r left right =>
    obtain ⟨n,rfl⟩ := Nat.exists_eq_succ_of_ne_zero (Nat.ne_zero_of_lt enough)
    obtain ⟨m,rfl⟩ := Nat.exists_eq_succ_of_ne_zero (Nat.ne_zero_of_lt le)
    obtain ⟨_,record,repL,repR⟩ := rep
    rw [depth] at enough
    have left := left repL (show l.depth < n by omega) (show n ≤ m by omega)
    have right := right repR (show r.depth < n by omega) (show n ≤ m by omega)
    change findLoop cmp key t (n+1) x = findLoop cmp key t (m+1) x
    simp only [findLoop,record,left,right]

/-- After every run of insertions of unlinked nodes and erasures of linked ones the search is right, and among
    `n` linked nodes its loop makes at most `2 * log2 (n + 1) + 1` rounds. -/
theorem kapi_rb_run_find (cmp : Nat → Nat → Int) (order : TotalPreorder cmp) (memory : Nat → Node Nat)
    (requests : List Request) (fuel : Nat) (enough : requests.length ≤ fuel)
    (legal : Runs.Guarded (step cmp fuel) Legal (start memory) requests) :
    ∃ s, Runs.run (step cmp fuel) (start memory) requests = some s ∧ ∀ key, ∃ y,
      kapiRbFind (2 * Nat.log2 (s.linked.length + 1) + 1) s.tree cmp key = some y ∧
      (y ∈ s.linked ∧ cmp key y = 0 ∨ y = 0 ∧ ∀ x ∈ s.linked, cmp key x ≠ 0) := by
  have empty : Grown cmp 0 (start memory) := by
    refine ⟨⟨.nil,⟨⟨trivial,trivial,rfl,List.nodup_nil⟩,⟨rfl,trivial,0,rfl⟩,List.Pairwise.nil⟩,?_⟩,List.nodup_nil,Nat.le_refl 0⟩
    exact fun i => Iff.rfl
  obtain ⟨s,run,⟨u,valid,members⟩,distinct,-⟩ := Runs.run_counted (step_grown order) requests 0 _ (by omega) empty legal
  have same : u.toList.length = s.linked.length :=
    ((List.perm_ext_iff_of_nodup valid.focus.distinct distinct).mpr members).length_eq
  have shallow := valid.redBlack.depth_le
  refine ⟨s,run,fun key => ?_⟩
  obtain ⟨y,found,answer⟩ := findLoop_spec key order valid.focus.tree valid.sorted
    (show u.toList.length < 2 * Nat.log2 (s.linked.length + 1) + 1 + u.toList.length by omega)
  refine ⟨y,?_,by simpa only [members] using answer⟩
  rw [← same] at *
  rw [kapiRbFind,show s.tree.root = ptr 0 u from valid.focus.rootIs,← found]
  exact findLoop_of_depth key valid.focus.tree (by omega) (by omega)

theorem kapi_rb_run_find_three : ∃ s y, Runs.run (step byAddress 3) (start fun _ => ⟨0,0,0,.red⟩)
    [.insert 2,.insert 1,.insert 3] = some s ∧ kapiRbFind 5 s.tree byAddress 3 = some y := by
  obtain ⟨s,ran,right⟩ := kapi_rb_run_find byAddress byAddress_total (fun _ => ⟨0,0,0,.red⟩)
    [.insert 2,.insert 1,.insert 3] 3 (by decide) (by decide +kernel)
  obtain ⟨y,found,-⟩ := right 3
  refine ⟨s,y,ran,?_⟩
  cases ran
  exact found

end
end Kenux.KapiRbtree
