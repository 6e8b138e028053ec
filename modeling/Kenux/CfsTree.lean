import Kenux.Runs
import Kenux.TreeHeap

/-!
The red-black tree of the scheduler (`cfs.c`). The end of a branch is a shared sentinel
node; a function returns `none` where the code reads or writes through `NULL` or where a
loop does not end in the given number of rounds. A deletion leaves the colours as they are,
so the root may become red, and an insertion whose repair climbs to a red root reads the
children of the sentinel (`redChain`). All other insertions (`rbtreeInsert_spec`) and all
deletions (`rbtreeDelete_spec`) keep the nodes in their order, and the first node is the
leftmost one (`rbtreeMin_spec`). Where all deletions take red nodes out, the tree stays
red-black (`rbtree_run_valid`); elsewhere it does not (`rbtree_delete_reddens`).
-/
namespace Kenux.CfsTree
open Kenux.Trees Kenux.TreeHeap Kenux.Runs
open Function (update update_self update_of_ne update_idem update_apply)

/-- A pointer to a node: `NULL`, the sentinel, or the node of a task. -/
inductive Ptr where
  | null
  | sentinel
  | task (n : Nat)
  deriving DecidableEq, Repr

/-- The root pointer and the nodes in memory; `tree->nil` is the sentinel. -/
structure RbTree where
  heap : Ptr → Node Ptr
  root : Ptr

def RbTree.load (t : RbTree) (p : Ptr) : Option (Node Ptr) := if p = .null then none else some (t.heap p)

def RbTree.store (t : RbTree) (p : Ptr) (f : Node Ptr → Node Ptr) : Option RbTree :=
  if p = .null then none else some { t with heap := update t.heap p (f (t.heap p)) }

def RbTree.setColor (t : RbTree) (p : Ptr) (c : Color) : Option RbTree := t.store p (Node.setColor c)

/-- The pointer to `node`, in the parent or in the root, becomes a pointer to `new`;
    the field on side `s` of the parent is compared first. -/
def relink (s : Side) (parent node new : Ptr) (t : RbTree) : Option RbTree :=
  if parent = .sentinel then some { t with root := new }
  else do
    if node = (← t.load parent).child s then t.store parent (Node.setChild s new)
    else t.store parent (Node.setChild s.flip new)

/-- `if (child != tree->nil) child->parent = parent;` -/
def adopt (child parent : Ptr) (t : RbTree) : Option RbTree :=
  if child ≠ .sentinel then t.store child (Node.setParent parent) else some t

/-- `__rotate_left` for the left side, `__rotate_right` for the right. -/
def rotate (s : Side) (x : Ptr) (t : RbTree) : Option RbTree := do
  let y := (← t.load x).child s.flip
  let t ← t.store x (Node.setChild s.flip ((← t.load y).child s))
  let t ← adopt ((← t.load y).child s) x t
  let t ← t.store y (Node.setParent (← t.load x).parent)
  let t ← relink s (← t.load x).parent x y t
  let t ← t.store y (Node.setChild s x)
  t.store x (Node.setParent y)

/-- One round of `__insert_fixup`, for a parent on side `s` of the grandparent: the
    next node and the tree. -/
def insertRound (s : Side) (z : Ptr) (t : RbTree) : Option (Ptr × RbTree) := do
  let p := (← t.load z).parent
  let g := (← t.load p).parent
  let y := (← t.load g).child s.flip
  if (← t.load y).color = .red then do
    let t ← t.setColor p .black
    let t ← t.setColor y .black
    let t ← t.setColor g .red
    some (g,t)
  else do
    let (z,t) ← if z = (← t.load p).child s.flip then do
        let t ← rotate s p t
        some (p,t)
      else some (z,t)
    let p := (← t.load z).parent
    let t ← t.setColor p .black
    let g := (← t.load p).parent
    let t ← t.setColor g .red
    let t ← rotate s.flip g t
    some (z,t)

def insertFixup : Nat → Ptr → RbTree → Option RbTree
  | 0, _, _ => none
  | fuel+1, z, t => do
    let p := (← t.load z).parent
    if (← t.load p).color = .red then do
      let g := (← t.load p).parent
      let (z,t) ← if p = (← t.load g).left then insertRound .left z t else insertRound .right z t
      insertFixup fuel z t
    else t.setColor t.root .black

/-- The descent of `rbtree_insert` from a node `x` below `y`: the node under which the
    new node goes. -/
def descend (key : Ptr → Nat) (node : Ptr) (t : RbTree) : Nat → Ptr → Ptr → Option Ptr
  | 0, _, _ => none
  | fuel+1, y, x =>
    if x = .sentinel then some y
    else do
      let n ← t.load x
      if key node < key x then descend key node t fuel x n.left else descend key node t fuel x n.right

/-- The pointer to a new node below `y`. -/
def link (key : Ptr → Nat) (node y : Ptr) (t : RbTree) : Option RbTree :=
  if y = .sentinel then some { t with root := node }
  else if key node < key y then t.store y (Node.setChild .left node)
  else t.store y (Node.setChild .right node)

def rbtreeInsert (key : Ptr → Nat) (fuel : Nat) (node : Ptr) (t : RbTree) : Option RbTree := do
  let t ← t.store node (fun n => { n with left := .sentinel, right := .sentinel, color := .red })
  let y ← descend key node t fuel .sentinel t.root
  let t ← t.store node (Node.setParent y)
  let t ← link key node y t
  insertFixup fuel node t

def transplant (u v : Ptr) (t : RbTree) : Option RbTree := do
  let t ← relink .left (← t.load u).parent u v t
  t.store v (Node.setParent (← t.load u).parent)

def treeMin (t : RbTree) : Nat → Ptr → Option Ptr
  | 0, _ => none
  | fuel+1, x => do
    let left := (← t.load x).left
    if left ≠ .sentinel then treeMin t fuel left else some x

/-- The end of `rbtree_delete` for a node with two children: `y` takes the place of `z`. -/
def takePlace (z y : Ptr) (t : RbTree) : Option RbTree := do
  let t ← transplant z y t
  let t ← t.store y (Node.setChild .left (← t.load z).left)
  let t ← t.store (← t.load y).left (Node.setParent y)
  t.store y (Node.setColor (← t.load z).color)

/-- The successor `y` of `z` leaves its place and takes over the right subtree of `z`. -/
def takeRight (z y : Ptr) (t : RbTree) : Option RbTree := do
  let x := (← t.load y).right
  if (← t.load y).parent = z then t.store x (Node.setParent y)
  else do
    let t ← transplant y x t
    let t ← t.store y (Node.setChild .right (← t.load z).right)
    t.store (← t.load y).right (Node.setParent y)

def rbtreeDelete (fuel : Nat) (z : Ptr) (t : RbTree) : Option RbTree := do
  let n ← t.load z
  if n.left = .sentinel then transplant z n.right t
  else if n.right = .sentinel then transplant z n.left t
  else do
    let y ← treeMin t fuel n.right
    let t ← takeRight z y t
    takePlace z y t

def originalColor (fuel : Nat) (z : Ptr) (t : RbTree) : Option Color := do
  let n ← t.load z
  if n.left = .sentinel ∨ n.right = .sentinel then some n.color
  else do
    let y ← treeMin t fuel n.right
    return (← t.load y).color

/-- `rbtree_min`, `NULL` for an empty tree. -/
def rbtreeMin (fuel : Nat) (t : RbTree) : Option Ptr :=
  if t.root = .sentinel then some .null else treeMin t fuel t.root

/-- Whether the repair of a red node below `p` climbs, over red parents with red siblings, to a red root. -/
def redChain (t : RbTree) : Nat → Ptr → Bool
  | 0, _ => true
  | fuel+1, p =>
    let g := (t.heap p).parent
    let uncle := if p = (t.heap g).left then (t.heap g).right else (t.heap g).left
    p ≠ .sentinel && (t.heap p).color = .red &&
      (g = .sentinel || ((t.heap uncle).color = .red && redChain t fuel (t.heap g).parent))

open Kenux.Trees.ColorTree hiding node nil

/-! ### Rotations -/

/-- The nodes in memory make up the tree around the focus, and the sentinel is black. -/
structure At (t : RbTree) (fs : List (Frame Ptr)) (u : ColorTree Ptr) : Prop where
  focus : Focus .sentinel t.heap t.root fs u
  real : ∀ i ∈ (plug fs u).toList, i ≠ .null
  sentinel : (t.heap .sentinel).color = .black

section
variable {t : RbTree} {fs gs : List (Frame Ptr)} {f g : Frame Ptr} {u v a b e near far l : ColorTree Ptr}
  {s : Side} {c d : Color} {x y z p : Ptr} {fuel : Nat}

theorem load_of_ne (real : p ≠ .null) : t.load p = some (t.heap p) := if_neg real

theorem store_of_ne {f : Node Ptr → Node Ptr} (real : p ≠ .null) :
    t.store p f = some { t with heap := update t.heap p (f (t.heap p)) } := if_neg real

private theorem at_up : At t (f :: fs) u ↔ At t fs (f.fill u) :=
  ⟨fun held => ⟨focus_up.mp held.focus,held.real,held.sentinel⟩,
    fun held => ⟨focus_up.mpr held.focus,held.real,held.sentinel⟩⟩

private theorem at_near : At t fs (branch s c near x far) ↔ At t (⟨s,c,x,far⟩ :: fs) near := by
  rw [at_up,Frame.fill]

private theorem at_far : At t fs (branch s c near x far) ↔ At t (⟨s.flip,c,x,near⟩ :: fs) far := by
  rw [at_up,Frame.fill,branch_flip]

private theorem at_plug : At t [] (plug fs u) ↔ At t fs u :=
  ⟨fun held => ⟨focus_plug.mp held.focus,held.real,held.sentinel⟩,
    fun held => ⟨focus_plug.mpr held.focus,held.real,held.sentinel⟩⟩

private theorem at_append : At t (gs ++ fs) u ↔ At t fs (plug gs u) := by
  rw [← at_plug,plug_append,at_plug]

theorem At.mem_real (held : At t fs u) {i : Ptr} (member : i ∈ u.toList ++ frameCells fs) : i ≠ .null :=
  held.real i ((toList_plug_perm fs u).mem_iff.mpr member)

theorem At.record (held : At t fs (branch s c near x far)) : x ≠ .sentinel ∧ x ≠ .null ∧
    t.heap x = Node.make s (top .sentinel fs) (ptr .sentinel near) (ptr .sentinel far) c := by
  obtain ⟨some,record⟩ := held.focus.record
  have member : x ∈ (branch s c near x far).toList := (toList_branch_perm s c near x far).mem_iff.mpr (by simp)
  exact ⟨some,held.mem_real (List.mem_append_left _ member),record⟩

theorem At.frameRecord (held : At t (f :: fs) u) : f.cell ≠ .sentinel ∧ f.cell ≠ .null ∧
    t.heap f.cell = Node.make f.side (top .sentinel fs) (ptr .sentinel u) (ptr .sentinel f.sibling) f.color :=
  (at_up.mp held).record

theorem adopt_eq {child : Ptr} (parent : Ptr) (real : child ≠ .null) :
    adopt child parent t = some { t with heap := adopted .sentinel t.heap child parent } := by
  by_cases missing : child = .sentinel
  · simp [adopt,adopted,missing]
  · simp [adopt,adopted,missing,store_of_ne real]

theorem relink_eq {node : Ptr} (s : Side) (new : Ptr) (held : Held .sentinel t.heap node fs)
    (real : top .sentinel fs ≠ .null) :
    relink s (top .sentinel fs) node new t =
      some { heap := relinked t.heap new fs, root := if fs = [] then new else t.root } := by
  cases fs with
  | nil => simp [relink,relinked]
  | cons f gs =>
    obtain ⟨someF,near,far⟩ := held
    rw [top_cons] at real
    by_cases side : f.side = s
    · subst side
      simp [relink,relinked,someF,near,load_of_ne real,store_of_ne real]
    · rw [Side.eq_flip_of_ne side,Side.flip_flip] at far
      simp [relink,relinked,someF,Ne.symm far,load_of_ne real,store_of_ne real,Side.eq_flip_of_ne side]

theorem setColor_spec (held : At t fs (branch s c near x far)) (d : Color) :
    ∃ t', t.setColor x d = some t' ∧ At t' fs (branch s d near x far) := by
  obtain ⟨some,real,-⟩ := held.record
  refine ⟨_,store_of_ne real,held.focus.setColor d,?_,?_⟩
  · rw [toList_plug,toList_recolor s d c x rfl rfl,← toList_plug]
    exact held.real
  · simp only
    rw [update_of_ne some.symm]
    exact held.sentinel

section
variable (held : At t fs u)
include held

theorem At.top_real : top .sentinel fs ≠ .null := by
  cases fs with
  | nil => simp
  | cons f gs => exact held.frameRecord.2.1

theorem At.ptr_real : ptr .sentinel u ≠ .null := by
  cases u with
  | nil => simp [ptr]
  | node c l x r => exact (At.record (s := .left) held).2.1

theorem At.color : (t.heap (ptr .sentinel u)).color = u.color := by
  cases u with
  | nil => exact held.sentinel
  | node c l x r =>
    rw [ptr,held.focus.tree.2.1]
    rfl

theorem setColor_blacken (some : u ≠ .nil) :
    ∃ t', t.setColor (ptr .sentinel u) .black = .some t' ∧ At t' fs u.blacken := by
  obtain ⟨c,near,x,far,rfl⟩ := branch_of_ne_nil .left some
  exact setColor_spec held .black

end

theorem rotate_eq (held : At t fs (branch s c a x (branch s d b y e))) :
    rotate s x t = some ⟨rotated .sentinel t.heap s c d x y (ptr .sentinel a) (ptr .sentinel b) (ptr .sentinel e) fs,
      if fs = [] then y else t.root⟩ := by
  obtain ⟨someX,realX,atX⟩ := held.record
  obtain ⟨someY,realY,atY⟩ := (at_far.mp held).record
  have realB : ptr .sentinel b ≠ .null := (at_near.mp (at_far.mp held)).ptr_real
  obtain ⟨xy,bApart,topApart⟩ := held.focus.turn_apart
  have above : fs ≠ [] → top .sentinel fs ≠ y := fun inside => (topApart (held.focus.top_ne_nil inside)).2.1
  have aboveX : fs ≠ [] → top .sentinel fs ≠ x := fun inside => (topApart (held.focus.top_ne_nil inside)).1
  have pointed := held_of_focus held.focus (by rw [ptr_branch]; exact someX)
  rw [ptr_branch] at atX pointed
  simp only [top_cons] at atY
  have xKept : ∀ h, adopted .sentinel h (ptr .sentinel b) x x = h x := fun h => adopted_of_ne (fun some => (bApart some).1)
  have yKept : ∀ h, adopted .sentinel h (ptr .sentinel b) x y = h y := fun h => adopted_of_ne (fun some => (bApart some).2)
  -- the heap once the inner subtree has moved below the node
  obtain ⟨h,moved⟩ : ∃ h, h = adopted .sentinel (update t.heap x
      (Node.make s (top .sentinel fs) (ptr .sentinel a) (ptr .sentinel b) c)) (ptr .sentinel b) x := ⟨_,rfl⟩
  have pointing : ∀ n, Held .sentinel (update h y n) x fs := by
    intro n
    refine pointed.congr (fun some => ?_)
    obtain ⟨notX,notY,notB⟩ := topApart some
    rw [update_of_ne notY,moved,adopted_of_ne (fun _ => notB.symm),update_of_ne notX]
  have linked : ∀ n, relink s (top .sentinel fs) x y ⟨update h y n,t.root⟩ =
      some ⟨relinked (update h y n) y fs,if fs = [] then y else t.root⟩ :=
    fun n => relink_eq s y (pointing n) held.top_real
  have atX' : h x = Node.make s (top .sentinel fs) (ptr .sentinel a) (ptr .sentinel b) c := by
    rw [moved,xKept,update_self]
  have atY' : h y = Node.make s x (ptr .sentinel b) (ptr .sentinel e) d := by
    rw [moved,yKept,update_of_ne xy.symm,atY]
  simp only [rotate,load_of_ne realX,load_of_ne realY,store_of_ne realX,store_of_ne realY,atX,atY,Option.bind_eq_bind,
    Option.bind_some,Node.child_flip_make,Node.child_make,Node.setChild_flip_make,update_of_ne xy.symm,
    adopt_eq x realB,← moved,atX',atY',update_of_ne xy,Node.make_parent,Node.setParent_make,linked,
    relinked_update above,update_self,Node.setChild_make,update_idem,relinked_of_ne aboveX]
  rw [rotated,turned,← moved,relinked_update above]

theorem rotate_spec (held : At t fs (branch s c a x (branch s d b y e))) :
    ∃ t', rotate s x t = some t' ∧ At t' fs (branch s d (branch s c a x b) y e) := by
  refine ⟨_,rotate_eq held,held.focus.rotated,?_,?_⟩
  · rw [toList_plug,toList_rotate,← toList_plug]
    exact held.real
  · simp only
    rw [rotated_nil held.record.1 (at_far.mp held).record.1 held.focus.top_ne_nil]
    exact held.sentinel

/-! ### Insertion -/

/-- The repair of a red node below these frames does not climb to a red root. -/
def SafeClimb : List (Frame Ptr) → Prop
  | [] => True
  | [f] => f.color = .black
  | f :: g :: fs => f.color = .black ∨ g.sibling.color = .black ∨ SafeClimb fs

private theorem safeClimb_of_black (black : f.color = .black) : SafeClimb (f :: fs) := by
  cases fs with
  | nil => exact black
  | cons g gs => exact .inl black

theorem SafeClimb.parent (safe : SafeClimb (f :: fs)) (red : f.color = .red) : ∃ g gs, fs = g :: gs := by
  cases fs with
  | nil =>
    rw [SafeClimb,red] at safe
    cases safe
  | cons g gs => exact ⟨g,gs,rfl⟩

theorem safeClimb_of_colors : ∀ {fs : List (Frame Ptr)}, FrameColors fs → SafeClimb fs
  | [], _ => trivial
  | [f], colors => by
    cases color : f.color with
    | black => exact safeClimb_of_black color
    | red =>
      obtain ⟨-,g,gs,none,-⟩ := colors.2.2 color
      cases none
  | _ :: _ :: _, colors => .inr (.inr (safeClimb_of_colors colors.2.1.2.1))

theorem At.parent (held : At t (f :: fs) u) (some : u ≠ .nil) :
    ptr .sentinel u ≠ .null ∧ (t.heap (ptr .sentinel u)).parent = f.cell := by
  obtain ⟨c,near,x,far,rfl⟩ := branch_of_ne_nil .left some
  obtain ⟨-,real,atX⟩ := held.record
  rw [ptr_branch,atX]
  exact ⟨real,by simp⟩

section
variable (held : At t (f :: g :: fs) u)
include held

theorem At.uncle :
    (if f.cell = (t.heap g.cell).left then (t.heap g.cell).right else (t.heap g.cell).left) = ptr .sentinel g.sibling := by
  obtain ⟨someF,-,-⟩ := held.frameRecord
  have up := at_up.mp held
  obtain ⟨-,-,atG⟩ := up.frameRecord
  have chosen := (held_of_focus up.focus (by simpa [Frame.fill] using someF)).side
    (fun s => (t.heap g.cell).child s.flip)
  rw [show ptr .sentinel (f.fill u) = f.cell by simp [Frame.fill]] at chosen
  have far : (t.heap g.cell).child g.side.flip = ptr .sentinel g.sibling := by rw [atG,Node.child_flip_make]
  exact chosen.trans far

theorem insert_outer (outer : f.side = g.side) :
    ∃ t₁ t₂ t₃, t.setColor f.cell .black = some t₁ ∧ (t₁.heap f.cell).parent = g.cell ∧
      t₁.setColor g.cell .red = some t₂ ∧ rotate g.side.flip g.cell t₂ = some t₃ ∧
      At t₃ (⟨g.side,.black,f.cell,branch g.side .red f.sibling g.cell g.sibling⟩ :: fs) u := by
  obtain ⟨t₁,run₁,held₁⟩ := setColor_spec (at_up.mp held) .black
  obtain ⟨t₂,run₂,held₂⟩ := setColor_spec (at_up.mp held₁) .red
  rw [outer,← branch_flip g.side,← branch_flip g.side .black] at held₂
  obtain ⟨t₃,run₃,held₃⟩ := rotate_spec held₂
  have parent : (t₁.heap f.cell).parent = g.cell := by
    rw [held₁.record.2.2,Node.make_parent,top_cons]
  refine ⟨t₁,t₂,t₃,run₁,parent,run₂,run₃,at_near.mp ?_⟩
  simpa using held₃

theorem insertRound_recolor (some : u ≠ .nil) (uncle : g.sibling.color = .red) :
    ∃ t', insertRound g.side (ptr .sentinel u) t = .some (g.cell,t') ∧
      At t' fs (branch g.side .red (branch f.side .black u f.cell f.sibling) g.cell g.sibling.blacken) := by
  obtain ⟨realU,parent⟩ := held.parent some
  obtain ⟨someF,realF,atF⟩ := held.frameRecord
  have whole := at_up.mp (at_up.mp held)
  obtain ⟨someG,realG,atG⟩ := whole.record
  have away := at_far.mp whole
  have red := away.color
  obtain ⟨t₁,run₁,held₁⟩ := setColor_spec (at_up.mp held) .black
  obtain ⟨t₂,run₂,held₂⟩ := setColor_blacken (at_far.mp (at_up.mp held₁)) (ne_nil_of_red uncle)
  obtain ⟨t₃,run₃,held₃⟩ := setColor_spec (at_far.mpr held₂) .red
  refine ⟨t₃,?_,held₃⟩
  rw [uncle] at red
  simp [insertRound,load_of_ne realU,parent,load_of_ne realF,atF,load_of_ne realG,atG,load_of_ne away.ptr_real,red,run₁,
    run₂,run₃]

/-- With a black uncle the parent turns down if the node is on the inner side, and
    then the grandparent; the new parent is black. -/
theorem insertRound_turn (some : u ≠ .nil) (uncle : g.sibling.color = .black) :
    ∃ t' f' u', insertRound g.side (ptr .sentinel u) t = .some (ptr .sentinel u',t') ∧ At t' (f' :: fs) u' ∧
      u' ≠ .nil ∧ f'.color = .black ∧ (plug (f' :: fs) u').toList = (plug (f :: g :: fs) u).toList ∧
      (f.color = .red → RedFocus (f :: g :: fs) u → RedFocus (f' :: fs) u') := by
  obtain ⟨realU,parent⟩ := held.parent some
  obtain ⟨someF,realF,atF⟩ := held.frameRecord
  have whole := at_up.mp (at_up.mp held)
  obtain ⟨someG,realG,atG⟩ := whole.record
  have away := at_far.mp whole
  have black := away.color
  rw [uncle] at black
  have someU : ptr .sentinel u ≠ .sentinel := (rep_ptr_eq_nil held.focus.tree).not.mpr some
  by_cases outer : f.side = g.side
  · obtain ⟨t₁,t₂,t₃,run₁,next,run₂,run₃,held'⟩ := insert_outer held outer
    have notInner : ptr .sentinel u ≠ ptr .sentinel f.sibling := by
      obtain ⟨-,-,apart⟩ := held_of_focus held.focus someU
      rw [atF,Node.child_flip_make] at apart
      exact apart.symm
    refine ⟨t₃,_,u,?_,held',some,rfl,?_,fun red colors => colors.turn red uncle g.side⟩
    · rw [outer] at atF
      simp [insertRound,load_of_ne realU,parent,load_of_ne realF,atF,load_of_ne realG,atG,load_of_ne away.ptr_real,black,
        notInner,run₁,next,run₂,run₃]
    · simp only [plug,toList_plug,Frame.fill,outer]
      rw [← toList_rotate,toList_recolor g.side .red g.color g.cell
        (toList_recolor g.side .black f.color f.cell rfl rfl) rfl]
  · obtain ⟨side,color,p,sibling⟩ := f
    obtain ⟨c,near,x,far,rfl⟩ := branch_of_ne_nil g.side some
    obtain rfl := Side.eq_flip_of_ne outer
    obtain ⟨t₀,run₀,held₀⟩ := rotate_spec (at_far.mpr held)
    obtain ⟨t₁,t₂,t₃,run₁,next,run₂,run₃,held'⟩ := insert_outer (at_near.mp held₀) rfl
    refine ⟨t₃,_,_,?_,held',?_,rfl,?_,?_⟩
    · obtain ⟨-,parent₀⟩ := (at_near.mp held₀).parent (branch_ne_nil _ _ _ _ _)
      simp only [ptr_branch] at parent₀ realU parent
      simp [insertRound,load_of_ne realU,parent,load_of_ne realF,atF,load_of_ne realG,atG,load_of_ne away.ptr_real,black,
        run₀,parent₀,run₁,next,run₂,run₃]
    · exact branch_ne_nil _ _ _ _ _
    · simp only [plug,toList_plug,Frame.fill]
      generalize g.side = s
      cases s <;> simp [Side.flip,branch,toList]
    · rintro rfl colors
      obtain rfl : c = .red := by simpa using colors.red
      exact colors.inner.turn rfl uncle g.side

end

theorem redChain_spec (held : At t fs u) (fuel : Nat) (clear : redChain t fuel (top .sentinel fs) = false) :
    SafeClimb fs := by
  induction fuel generalizing fs u with
  | zero => cases clear
  | succ fuel ih =>
    cases fs with
    | nil => trivial
    | cons f fs =>
      obtain ⟨someF,realF,atF⟩ := held.frameRecord
      cases color : f.color with
      | black => exact safeClimb_of_black color
      | red =>
        have parent : (t.heap f.cell).parent = top .sentinel fs := by rw [atF,Node.make_parent]
        have red : (t.heap f.cell).color = .red := by rw [atF,Node.make_color,color]
        rw [top_cons,redChain,parent,red] at clear
        cases fs with
        | nil => simp [someF] at clear
        | cons g gs =>
          have above := at_up.mp (at_up.mp held)
          obtain ⟨someG,-,atG⟩ := above.record
          have sibling := (at_far.mp above).color
          rw [top_cons,held.uncle,sibling,atG] at clear
          cases color : g.sibling.color with
          | black => exact .inr (.inl color)
          | red =>
            refine .inr (.inr (ih above ?_))
            simpa [someF,someG,color] using clear

theorem insertFixup_spec : ∀ (fuel : Nat) (fs : List (Frame Ptr)) (u : ColorTree Ptr) (t : RbTree), At t fs u → u ≠ .nil →
    SafeClimb fs → fs.length < fuel → ∃ t' v, insertFixup fuel (ptr .sentinel u) t = some t' ∧ At t' [] v ∧
      v.toList = (plug fs u).toList ∧ (RedFocus fs u → RedBlack v)
  | 0, _, _, _, _, _, _, enough => absurd enough (by omega)
  | fuel+1, [], u, t, held, present, _, _ => by
    obtain ⟨c,near,x,far,rfl⟩ := branch_of_ne_nil .left present
    obtain ⟨-,real,atX⟩ := held.record
    obtain ⟨t',run,held'⟩ := setColor_spec held .black
    refine ⟨t',_,?_,held',toList_recolor .left .black c x rfl rfl,RedFocus.root⟩
    have root : t.root = x := held.focus.rootIs.trans ptr_branch
    have leaf : t.load .sentinel = some (t.heap .sentinel) := load_of_ne nofun
    simp [insertFixup,load_of_ne real,atX,leaf,held.sentinel,root,run]
  | fuel+1, f :: fs, u, t, held, present, safe, enough => by
    obtain ⟨realU,parent⟩ := held.parent present
    obtain ⟨someF,realF,atF⟩ := held.frameRecord
    cases color : f.color with
    | black =>
      have whole := at_plug.mpr held
      have someWhole : plug (f :: fs) u ≠ .nil := plug_ne_nil _ (.inl nofun)
      obtain ⟨t',run,held'⟩ := setColor_blacken whole someWhole
      refine ⟨t',_,?_,held',toList_blacken _,fun colors => ?_⟩
      have root : t.root = ptr .sentinel (plug (f :: fs) u) := whole.focus.rootIs
      · simp [insertFixup,load_of_ne realU,parent,load_of_ne realF,atF,color,root,run]
      · rw [blacken_of_black (plug_root_black colors.frames)]
        exact colors.done color
    | red =>
      obtain ⟨g,gs,rfl⟩ := safe.parent color
      have up := at_up.mp held
      obtain ⟨-,realG,-⟩ := up.frameRecord
      have chosen := (held_of_focus up.focus (by simpa [Frame.fill] using someF)).side
        (fun s => (insertRound s (ptr .sentinel u) t).bind fun next => insertFixup fuel next.1 next.2)
      -- either way the loop goes on below fewer frames
      obtain ⟨t₁,gs₁,v₁,run₁,held₁,some₁,safe₁,shorter,order₁,focus₁⟩ : ∃ t₁ gs₁ v₁,
          insertRound g.side (ptr .sentinel u) t = .some (ptr .sentinel v₁,t₁) ∧ At t₁ gs₁ v₁ ∧ v₁ ≠ .nil ∧
          SafeClimb gs₁ ∧ gs₁.length ≤ gs.length + 1 ∧ (plug gs₁ v₁).toList = (plug (f :: g :: gs) u).toList ∧
          (RedFocus (f :: g :: gs) u → RedFocus gs₁ v₁) := by
        cases uncle : g.sibling.color with
        | red =>
          obtain ⟨t',run,held'⟩ := insertRound_recolor held present uncle
          refine ⟨t',gs,_,by simpa using run,held',branch_ne_nil _ _ _ _ _,?_,by omega,?_,
            fun colors => colors.recolor color uncle⟩
          · rcases safe with black | black | safe
            · rw [color] at black
              cases black
            · rw [uncle] at black
              cases black
            · exact safe
          · simp only [plug,Frame.fill,toList_plug]
            rw [toList_recolor g.side .red g.color g.cell (toList_recolor f.side .black f.color f.cell rfl rfl)
              (toList_blacken _)]
        | black =>
          obtain ⟨t',f',v,run,held',some',black,order,colors⟩ := insertRound_turn held present uncle
          exact ⟨t',f' :: gs,v,run,held',some',safeClimb_of_black black,by simp,order,colors color⟩
      obtain ⟨t',v,run,held',order,valid⟩ := insertFixup_spec fuel gs₁ v₁ t₁ held₁ some₁ safe₁ (by simp at enough; omega)
      refine ⟨t',v,?_,held',order.trans order₁,valid ∘ focus₁⟩
      simp only [Frame.fill,run₁,Option.bind_some,run] at chosen
      simpa [insertFixup,load_of_ne realU,parent,load_of_ne realF,atF,color,load_of_ne realG] using chosen

/-- The innermost frame has the focus on the side that the comparison of the keys chooses. -/
def Directed (key : Ptr → Nat) (node : Ptr) : List (Frame Ptr) → Prop
  | [] => True
  | f :: _ => if key node < key f.cell then f.side = .left else f.side = .right

variable {key : Ptr → Nat} {node : Ptr}

def Sorted (key : Ptr → Nat) (u : ColorTree Ptr) : Prop := u.toList.Pairwise (fun a b => key a ≤ key b)

theorem descend_spec : ∀ (fuel : Nat) (fs : List (Frame Ptr)) (u : ColorTree Ptr), u.toList.length < fuel →
    Sorted key u → Between (fun a b => key a ≤ key b) node fs → Directed key node fs →
    ∃ gs, plug gs .nil = plug fs u ∧ Between (fun a b => key a ≤ key b) node gs ∧ Directed key node gs ∧
      ∀ t, At t fs u → descend key node t fuel (top .sentinel fs) (ptr .sentinel u) = some (top .sentinel gs)
  | 0, _, _, enough, _, _, _ => absurd enough (by omega)
  | fuel+1, fs, .nil, _, _, between, directed => ⟨fs,rfl,between,directed,fun t _ => by simp [descend,ptr]⟩
  | fuel+1, fs, .node c l x r, enough, sorted, between, directed => by
    have below : Sorted key l ∧ Sorted key r := by
      simp only [Sorted,toList,List.pairwise_append,List.pairwise_cons] at sorted
      exact ⟨sorted.1,sorted.2.1.2⟩
    have trans : ∀ a b c : Ptr, key a ≤ key b → key b ≤ key c → key a ≤ key c := fun _ _ _ => Nat.le_trans
    simp only [toList,List.length_append,List.length_cons] at enough
    by_cases less : key node < key x
    · obtain ⟨gs,same,between',directed',run⟩ := descend_spec fuel (⟨.left,c,x,r⟩ :: fs) l (by omega) below.1
        (between.left trans sorted (Nat.le_of_lt less)) (by simp [Directed,less])
      refine ⟨gs,same,between',directed',fun t held => ?_⟩
      obtain ⟨some,real,atX⟩ := At.record (s := .left) held
      have down := run t (at_near (s := .left).mp held)
      simpa [descend,ptr,some,load_of_ne real,atX,less,Node.make] using down
    · obtain ⟨gs,same,between',directed',run⟩ := descend_spec fuel (⟨.right,c,x,l⟩ :: fs) r (by omega) below.2
        (between.right trans sorted (Nat.le_of_not_lt less)) (by simp [Directed,less])
      refine ⟨gs,same,between',directed',fun t held => ?_⟩
      obtain ⟨some,real,atX⟩ := At.record (s := .left) held
      have down := run t (at_near (s := .right).mp held)
      simpa [descend,ptr,some,load_of_ne real,atX,less,Node.make] using down

theorem link_eq (directed : Directed key node fs) (inside : fs ≠ [] → top .sentinel fs ≠ .sentinel)
    (real : top .sentinel fs ≠ .null) :
    link key node (top .sentinel fs) t = some ⟨relinked t.heap node fs,if fs = [] then node else t.root⟩ := by
  cases fs with
  | nil => simp [link,relinked]
  | cons f gs =>
    have someF : f.cell ≠ .sentinel := inside (List.cons_ne_nil _ _)
    rw [top_cons] at real
    rw [Directed] at directed
    by_cases less : key node < key f.cell
    · rw [if_pos less] at directed
      simp [link,relinked,someF,less,store_of_ne real,directed]
    · rw [if_neg less] at directed
      simp [link,relinked,someF,less,store_of_ne real,directed]

theorem attach_spec (held : At t fs .nil) (directed : Directed key node fs) (some : node ≠ .sentinel) (real : node ≠ .null)
    (fresh : node ∉ (plug fs .nil).toList)
    (blank : (t.heap node).left = .sentinel ∧ (t.heap node).right = .sentinel ∧ (t.heap node).color = .red) :
    ∃ t₁ t₂, t.store node (Node.setParent (top .sentinel fs)) = .some t₁ ∧
      link key node (top .sentinel fs) t₁ = .some t₂ ∧ At t₂ fs (branch .left .red .nil node .nil) := by
  have outside : node ∉ frameCells fs := by
    have member := (toList_plug_perm fs .nil).mem_iff.not.mp fresh
    simpa [toList] using member
  have apart : fs ≠ [] → top .sentinel fs ≠ node := by
    intro inside
    cases fs with
    | nil => exact absurd rfl inside
    | cons f gs =>
      rintro rfl
      exact outside top_mem
  refine ⟨_,_,store_of_ne real,link_eq directed held.focus.top_ne_nil held.top_real,?_,?_,?_⟩
  · refine held.focus.attach some fresh ?_ ?_ ?_ rfl
    · simp only
      rw [relinked_of_ne apart]
      obtain ⟨left,right,color⟩ := blank
      simp [Node.setParent,left,right,color]
    · rintro f gs rfl
      have other : f.cell ≠ node := apart (List.cons_ne_nil _ _)
      simp [relinked,other]
    · intro i member notTop
      have other := ne_of_mem_of_not_mem member outside
      simp only
      rw [relinked_of_ne (fun _ => notTop.symm),update_of_ne other]
  · intro i member
    rw [(toList_plug_perm ..).mem_iff] at member
    rcases List.mem_append.mp member with here | above
    · simp only [branch,toList,List.nil_append,List.mem_singleton] at here
      rw [here]
      exact real
    · exact held.mem_real (List.mem_append_right _ above)
  · simp only
    rw [relinked_of_ne held.focus.top_ne_nil,update_of_ne some.symm]
    exact held.sentinel

theorem At.frame (held : At t fs u) (some : x ≠ .sentinel) (fresh : x ∉ (plug fs u).toList) (n : Node Ptr) :
    At { t with heap := update t.heap x n } fs u := by
  constructor
  · apply held.focus.congr
    intro i member
    exact update_of_ne (by rintro rfl; exact fresh member) _ _
  · exact held.real
  · simp only
    rw [update_of_ne some.symm]
    exact held.sentinel

/-- The memory holds a search tree of the linked tasks. -/
structure Linked (key : Ptr → Nat) (t : RbTree) (tasks : List Nat) (u : ColorTree Ptr) : Prop where
  held : At t [] u
  sorted : Sorted key u
  perm : u.toList.Perm (tasks.map .task)

variable {n : Nat} {tasks : List Nat}

/-- An insertion whose repair does not climb to a red root puts the node in its place. -/
theorem rbtreeInsert_spec (linked : Linked key t tasks u) (absent : n ∉ tasks) (enough : tasks.length < fuel)
    (clear : RedBlack u ∨ ∀ y, descend key (.task n) t fuel .sentinel t.root = .some y → redChain t fuel y = false) :
    ∃ t' v, rbtreeInsert key fuel (.task n) t = .some t' ∧ Linked key t' (n :: tasks) v ∧ (RedBlack u → RedBlack v) := by
  obtain ⟨held,sorted,perm⟩ := linked
  have everywhere : Between (fun a b => key a ≤ key b) (.task n) [] := ⟨by simp [before],by simp [after]⟩
  obtain ⟨fs,same,between,directed,run⟩ := descend_spec fuel [] u (by simpa [perm.length_eq] using enough) sorted everywhere trivial
  subst same
  have root : t.root = ptr .sentinel (plug fs .nil) := held.focus.rootIs
  have safe : SafeClimb fs := by
    rcases clear with ⟨black,colored,total,height⟩ | clear
    · exact safeClimb_of_colors (frames_of_plug black colored height).1
    · exact redChain_spec (at_plug.mp held) fuel (clear _ (by rw [root]; exact run t held))
  have fresh : .task n ∉ (plug fs .nil).toList := by simpa [perm.mem_iff] using absent
  have some : Ptr.task n ≠ .sentinel := by simp
  have real : Ptr.task n ≠ .null := by simp
  have held₀ := held.frame some fresh ⟨(t.heap (.task n)).parent,.sentinel,.sentinel,.red⟩
  obtain ⟨t₁,t₂,run₁,run₂,held₂⟩ := attach_spec (at_plug.mp held₀) directed some real fresh (by simp)
  have short := length_frames_le fs (.nil : ColorTree Ptr)
  rw [perm.length_eq,List.length_map] at short
  obtain ⟨t₃,v,run₃,held₃,order,valid⟩ := insertFixup_spec fuel fs _ t₂ held₂ (branch_ne_nil _ _ _ _ _) safe (by omega)
  refine ⟨t₃,v,?_,⟨held₃,?_,?_⟩,fun before => valid (.leaf _ before)⟩
  · have down := run _ held₀
    rw [ptr_branch] at run₃
    rw [← root,top_nil] at down
    rw [rbtreeInsert,store_of_ne real]
    simp [down,run₁,run₂,run₃]
  · rw [Sorted,order]
    exact between.insert sorted
  · rw [order]
    exact (toList_plug_perm fs _).trans (((toList_plug_perm fs .nil).symm.trans perm).cons _)

/-! ### The leftmost node -/

theorem treeMin_spec (held : At t fs u) (present : u ≠ .nil) (enough : u.toList.length ≤ fuel) :
    ∃ gs d y r, treeMin t fuel (ptr .sentinel u) = some y ∧ u = plug gs (branch .right d r y .nil) ∧ before gs = [] := by
  refine leftmost_spec fuel u _ held.focus.tree (fun fuel x member => ?_) present enough
  simp [treeMin,load_of_ne (held.mem_real (List.mem_append_left _ member))]

theorem rbtreeMin_spec (held : At t [] u) (enough : u.toList.length ≤ fuel) :
    rbtreeMin fuel t = some (u.toList.head?.getD .null) := by
  have root : t.root = ptr .sentinel u := held.focus.rootIs
  rw [rbtreeMin,root]
  by_cases empty : u = .nil
  · subst empty
    simp [ptr,toList]
  · rw [if_neg ((rep_ptr_eq_nil held.focus.tree).not.mpr empty)]
    obtain ⟨gs,d,y,r,run,rfl,chain⟩ := treeMin_spec held empty enough
    rw [run]
    simp [toList_plug,branch,toList,chain]

/-! ### Deletion -/

theorem transplant_eq (held : Held .sentinel t.heap x fs) (parent : (t.heap x).parent = top .sentinel fs)
    (apartX : fs ≠ [] → top .sentinel fs ≠ x) (apartY : fs ≠ [] → top .sentinel fs ≠ y)
    (realX : x ≠ .null) (realY : y ≠ .null) (realTop : top .sentinel fs ≠ .null) :
    transplant x y t = some ⟨update (relinked t.heap y fs) y ((t.heap y).setParent (top .sentinel fs)),
      if fs = [] then y else t.root⟩ := by
  simp [transplant,load_of_ne realX,parent,relink_eq .left y held realTop,
    relinked_of_ne apartX,store_of_ne realY,relinked_of_ne apartY]

theorem transplant_spec (held : At t fs (branch s c u x .nil)) :
    ∃ t', transplant x (ptr .sentinel u) t = some t' ∧ At t' fs u ∧ t'.heap x = t.heap x := by
  obtain ⟨someX,realX,atX⟩ := held.record
  obtain ⟨absent,notTop,below⟩ := held.focus.splice_apart
  have pointed := held_of_focus held.focus (by rw [ptr_branch]; exact someX)
  rw [ptr_branch] at pointed
  have apart : fs ≠ [] → top .sentinel fs ≠ ptr .sentinel u := by
    intro inside same
    have some := held.focus.top_ne_nil inside
    exact (below _ (ptr_mem (same ▸ some))).1 same.symm
  have other : x ≠ ptr .sentinel u := by
    intro same
    exact absent (same ▸ ptr_mem (same ▸ someX))
  have run := transplant_eq pointed (by rw [atX,Node.make_parent]) (fun _ => notTop.symm) apart realX
    (at_near.mp held).ptr_real held.top_real
  have spliced := held.focus.splice
  refine ⟨_,run,⟨?_,?_,?_⟩,?_⟩
  · refine spliced.congr (fun i member => ?_)
    by_cases missing : ptr .sentinel u = .sentinel
    · -- the code writes the parent of the sentinel, which is no cell of the tree
      simp only [adopted,missing,ne_eq,not_true_eq_false,if_false]
      rw [update_of_ne (spliced.mem_ne_nil i member)]
    · rw [← relinked_update apart,adopted,if_pos missing]
  · intro i member
    refine held.real i ?_
    rw [(toList_plug_perm ..).mem_iff,List.mem_append] at member ⊢
    exact member.imp_left (fun below => (toList_branch_perm s c u x .nil).mem_iff.mpr (by simp [below]))
  · simp only [update_apply]
    split
    · next same =>
      rw [← same]
      exact held.sentinel
    · rw [relinked_of_ne held.focus.top_ne_nil]
      exact held.sentinel
  · simp only
    rw [update_of_ne other,relinked_of_ne (fun _ => notTop.symm)]

/-- The node `y` has left its place in the tree of `h` and points to the right subtree of `z`. -/
structure Ready (t : RbTree) (h : Ptr → Node Ptr) (z y : Ptr) (fs : List (Frame Ptr)) (c : Color)
    (l r : ColorTree Ptr) : Prop where
  focus : Focus .sentinel h t.root fs (.node c l z r)
  fresh : y ∉ (plug fs (.node c l z r)).toList
  some : y ≠ .sentinel
  real : ∀ i ∈ y :: (plug fs (.node c l z r)).toList, i ≠ .null
  right : (t.heap y).right = ptr .sentinel r
  atRight : ptr .sentinel r ≠ .sentinel → t.heap (ptr .sentinel r) = (h (ptr .sentinel r)).setParent y
  atZ : (t.heap z).parent = top .sentinel fs ∧ (t.heap z).left = ptr .sentinel l ∧ (t.heap z).color = c
  others : ∀ i, i ≠ .sentinel → i ≠ y → i ≠ z → i ≠ ptr .sentinel r → t.heap i = h i
  sentinel : (t.heap .sentinel).color = .black

section
variable {h : Ptr → Node Ptr} {l r : ColorTree Ptr}

section
variable (ready : Ready t h z y fs c l r)
include ready

theorem Ready.real_placed : ∀ i ∈ (plug fs (.node c l y r)).toList, i ≠ .null := by
  intro i member
  apply ready.real i
  rw [(toList_plug_perm ..).mem_iff] at member
  rw [List.mem_cons,(toList_plug_perm ..).mem_iff]
  simp only [toList,List.mem_append,List.mem_cons] at member ⊢
  rcases member with (left | rfl | right) | above
  · exact .inr (.inl (.inl left))
  · exact .inl rfl
  · exact .inr (.inl (.inr (.inr right)))
  · exact .inr (.inr above)

theorem Ready.top_kept (inside : fs ≠ []) :
    t.heap (top .sentinel fs) = h (top .sentinel fs) := by
  obtain ⟨-,-,-,topApart⟩ := ready.focus.relabel_apart ready.fresh
  obtain ⟨topZ,topY,-,topR⟩ := topApart inside
  exact ready.others _ (ready.focus.top_ne_nil inside) topY topZ topR

theorem takePlace_eq (someL : ptr .sentinel l ≠ .sentinel) :
    takePlace z y t = some ⟨update (update (relinked t.heap y fs) (ptr .sentinel l)
      ((t.heap (ptr .sentinel l)).setParent y)) y ⟨top .sentinel fs,ptr .sentinel l,ptr .sentinel r,c⟩,
      if fs = [] then y else t.root⟩ := by
  obtain ⟨parent,left,color⟩ := ready.atZ
  obtain ⟨zy,lApart,-,topApart⟩ := ready.focus.relabel_apart ready.fresh
  obtain ⟨lz,ly⟩ := lApart someL
  have inTree : ∀ i ∈ (ColorTree.node c l z r).toList ++ frameCells fs, i ≠ .null := fun i member =>
    ready.real i (List.mem_cons_of_mem _ ((toList_plug_perm ..).mem_iff.mpr member))
  have realY : y ≠ .null := ready.real y (by simp)
  have realZ : z ≠ .null := inTree z (by simp [toList])
  have realL : ptr .sentinel l ≠ .null := inTree _ (by simp [toList,ptr_mem someL])
  have realTop : top .sentinel fs ≠ .null := by
    cases fs with
    | nil => simp
    | cons f gs => exact inTree _ (List.mem_append_right _ top_mem)
  have pointed : Held .sentinel t.heap z fs := by
    refine (held_of_focus ready.focus ready.focus.tree.1).congr (fun some => ready.top_kept ?_)
    rintro rfl
    exact some rfl
  have run := transplant_eq pointed parent (fun inside => (topApart inside).1) (fun inside => (topApart inside).2.1)
    realZ realY realTop
  have above : ∀ h new i, (fs ≠ [] → top .sentinel fs ≠ i) → relinked h new fs i = h i := fun h new i => relinked_of_ne
  simp [takePlace,run,load_of_ne realZ,load_of_ne realY,store_of_ne realY,
    update_of_ne zy,above _ _ _ (fun inside => (topApart inside).1),left,
    Node.setChild,store_of_ne realL,update_of_ne ly,above _ _ _ (fun inside => (topApart inside).2.2.1),
    update_of_ne lz.symm,color,update_of_ne ly.symm,Function.update_comm ly,Node.setParent,
    Node.setColor,ready.right]

theorem takePlace_spec (present : l ≠ .nil) :
    ∃ t', takePlace z y t = some t' ∧ At t' fs (.node c l y r) := by
  have someL : ptr .sentinel l ≠ .sentinel := (rep_ptr_eq_nil ready.focus.tree.2.2.1).not.mpr present
  obtain ⟨zy,lApart,rApart,topApart⟩ := ready.focus.relabel_apart ready.fresh
  obtain ⟨lz,ly⟩ := lApart someL
  have lr : ptr .sentinel l ≠ ptr .sentinel r := by
    intro same
    exact (rApart (same ▸ someL)).2.2 same.symm
  have above : ∀ h new i, (fs ≠ [] → top .sentinel fs ≠ i) → relinked h new fs i = h i := fun h new i => relinked_of_ne
  refine ⟨_,takePlace_eq ready someL,?_,ready.real_placed,?_⟩
  · dsimp only
    refine Focus.relabel (s := .left) ready.focus ready.some ready.fresh (by simp [Node.make]) ?_ ?_ ?_ ?_ rfl
    · intro _
      rw [update_of_ne ly,update_self,ready.others _ someL ly lz lr]
    · intro some
      obtain ⟨-,ry,rl⟩ := rApart some
      rw [update_of_ne ry,update_of_ne rl,above _ _ _ (fun inside => (topApart inside).2.2.2),
        ready.atRight some]
    · rintro f gs rfl
      obtain ⟨-,fy,fl,-⟩ := topApart nofun
      have same := ready.top_kept nofun
      rw [top_cons] at fy fl same
      rw [update_of_ne fy,update_of_ne fl,relinked,update_self,same]
    · intro i someI notZ notY notL notR notTop
      rw [update_of_ne notY,update_of_ne notL,above _ _ _ (fun _ => notTop.symm),
        ready.others i someI notY notZ notR]
  · dsimp only
    rw [update_of_ne ready.some.symm,update_of_ne someL.symm,above _ _ _ ready.focus.top_ne_nil]
    exact ready.sentinel

end

end

private theorem sentinel_setParent {h : Ptr → Node Ptr} (black : (h .sentinel).color = .black) (p : Ptr) :
    (update h x ((h x).setParent p) .sentinel).color = .black := by
  rw [update_apply]
  split
  · next same =>
    rw [← same]
    exact black
  · exact black

theorem real_without (held : At t fs (branch s c u x .nil)) : ∀ i ∈ x :: (plug fs u).toList, i ≠ .null := by
  have perm : (plug fs (branch s c u x .nil)).toList.Perm (x :: (plug fs u).toList) := by
    obtain ⟨early,late,old,new⟩ := toList_splice fs s c u x
    rw [old,new]
    exact List.perm_middle
  exact fun i member => held.real i (perm.mem_iff.mpr member)

theorem takeRight_child (held : At t fs (.node c l z (branch .right d u y .nil))) :
    ∃ t' h, takeRight z y t = some t' ∧ Ready t' h z y fs c l u := by
  obtain ⟨someZ,realZ,atZ⟩ := At.record (s := .left) held
  have below : At t (⟨.right,c,z,l⟩ :: fs) (branch .right d u y .nil) := at_near (s := .right).mp held
  obtain ⟨someY,realY,atY⟩ := below.record
  have child : (t.heap y).right = ptr .sentinel u := by rw [atY]; rfl
  have parent : (t.heap y).parent = z := by rw [atY]; rfl
  have realU : ptr .sentinel u ≠ .null := (at_near.mp below).ptr_real
  obtain ⟨absent,-,apart⟩ := below.focus.splice_apart
  have uy : ptr .sentinel u ≠ y := by
    rintro rfl
    exact absent (ptr_mem someY)
  have uz : ptr .sentinel u ≠ z := by
    rintro rfl
    exact (apart _ (ptr_mem someZ)).1 rfl
  have away := below.focus.splice
  have run : takeRight z y t =
      some ⟨update t.heap (ptr .sentinel u) ((t.heap (ptr .sentinel u)).setParent y),t.root⟩ := by
    simp [takeRight,load_of_ne realY,child,parent,store_of_ne realU]
  have real := real_without below
  refine ⟨_,_,run,⟨focus_near (s := .right).mpr away,below.focus.splice_fresh,someY,real,?_,?_,?_,?_,?_⟩⟩ <;> dsimp only
  · rw [update_of_ne uy.symm,child]
  · intro some
    simp [relinked,update_of_ne uz,adopted_self some,Node.setParent]
  · simp [update_of_ne uz.symm,atZ,Node.make]
  · intro i someI notY notZ notU
    rw [update_of_ne notU,relinked,update_of_ne notZ,adopted_of_ne (fun _ => notU.symm)]
  · exact sentinel_setParent held.sentinel y

theorem takeRight_deep (held : At t fs (.node c l z (plug (g :: gs) (branch .right d u y .nil)))) :
    ∃ t' h, takeRight z y t = some t' ∧ Ready t' h z y fs c l (plug (g :: gs) u) := by
  obtain ⟨someZ,realZ,atZ⟩ := At.record (s := .left) held
  have below : At t ((g :: gs) ++ ⟨.right,c,z,l⟩ :: fs) (branch .right d u y .nil) :=
    at_append.mpr (at_near (s := .right).mp held)
  obtain ⟨someY,realY,atY⟩ := below.record
  have child : (t.heap y).right = ptr .sentinel u := by rw [atY]; rfl
  have parent : (t.heap y).parent = g.cell := by rw [atY]; rfl
  have fresh := below.focus.splice_fresh
  have real := real_without below
  rw [plug_append] at fresh real
  obtain ⟨t₁,run₁,held₁,same⟩ := transplant_spec below
  have moved : At t₁ fs (.node c l z (plug (g :: gs) u)) := at_near (s := .right).mpr (at_append.mp held₁)
  obtain ⟨-,-,atZ₁⟩ := At.record (s := .left) moved
  have other : g.cell ≠ z := by
    have cells := (List.nodup_append.mp held₁.focus.cells).2.1
    simp only [List.cons_append,frameCells,frameCells_append,List.nodup_cons,List.mem_append,List.mem_cons,not_or] at cells
    exact cells.1.2.2.1
  obtain ⟨zy,-,rApart,-⟩ := moved.focus.relabel_apart fresh
  have right : At t₁ (⟨.right,c,z,l⟩ :: fs) (plug (g :: gs) u) := at_near (s := .right).mp moved
  have someR : ptr .sentinel (plug (g :: gs) u) ≠ .sentinel :=
    (rep_ptr_eq_nil right.focus.tree).not.mpr (plug_ne_nil _ (.inl (List.cons_ne_nil _ _)))
  have realR : ptr .sentinel (plug (g :: gs) u) ≠ .null := right.ptr_real
  obtain ⟨rz,ry,-⟩ := rApart someR
  have pointer : (t₁.heap z).right = ptr .sentinel (plug (g :: gs) u) := by rw [atZ₁]; rfl
  have run : takeRight z y t = some ⟨update (update t₁.heap y
      ((t₁.heap y).setChild .right (ptr .sentinel (plug (g :: gs) u)))) (ptr .sentinel (plug (g :: gs) u))
      ((t₁.heap (ptr .sentinel (plug (g :: gs) u))).setParent y),t₁.root⟩ := by
    simp [takeRight,load_of_ne realY,child,parent,other,run₁,load_of_ne realZ,pointer,store_of_ne realY,Node.setChild,
      store_of_ne realR,update_of_ne ry]
  refine ⟨_,_,run,⟨moved.focus,fresh,someY,real,?_,?_,?_,?_,?_⟩⟩ <;> dsimp only
  · rw [update_of_ne ry.symm,update_self]
    rfl
  · intro _
    rw [update_self]
  · simp [update_of_ne rz.symm,update_of_ne zy,atZ₁,Node.make]
  · intro i someI notY notZ notR
    rw [update_of_ne notR,update_of_ne notY]
  · rw [update_of_ne someR.symm,update_of_ne someY.symm]
    exact moved.sentinel

private theorem takeRight_spec (held : At t fs (.node c l z (plug gs (branch .right d u y .nil)))) :
    ∃ t' h, takeRight z y t = some t' ∧ Ready t' h z y fs c l (plug gs u) := by
  cases gs with
  | nil => exact takeRight_child held
  | cons g gs => exact takeRight_deep held

theorem Linked.without (linked : Linked key t tasks u) (member : n ∈ tasks) {t' : RbTree} (held : At t' [] v)
    (cut : ∃ early late, u.toList = early ++ .task n :: late ∧ v.toList = early ++ late) :
    Linked key t' (tasks.erase n) v := by
  obtain ⟨early,late,old,new⟩ := cut
  obtain ⟨-,sorted,perm⟩ := linked
  rw [Sorted,old] at sorted
  rw [old] at perm
  refine ⟨held,?_,?_⟩
  · rw [Sorted,new]
    exact sorted.sublist (List.Sublist.append_left (List.sublist_cons_self _ late) early)
  · rw [new]
    exact (List.perm_middle.symm.trans (perm.trans ((List.perm_cons_erase member).map _))).cons_inv

theorem rbtreeDelete_spec (linked : Linked key t tasks u) (member : n ∈ tasks) (enough : tasks.length ≤ fuel) :
    ∃ t' v, rbtreeDelete fuel (.task n) t = some t' ∧ Linked key t' (tasks.erase n) v ∧
      (originalColor fuel (.task n) t = some .red → RedBlack u → RedBlack v) := by
  obtain ⟨fs,c,l,r,rfl⟩ := exists_plug_of_mem (linked.perm.mem_iff.mpr (List.mem_map_of_mem member))
  have here := at_plug.mp linked.held
  obtain ⟨someZ,realZ,atZ⟩ := At.record (s := .left) here
  have left := rep_ptr_eq_nil (at_near (s := .left).mp here).focus.tree
  have right := rep_ptr_eq_nil (at_near (s := .right).mp here).focus.tree
  by_cases noLeft : l = .nil
  · subst noLeft
    obtain ⟨t',run,held',-⟩ := transplant_spec (s := .right) here
    refine ⟨t',_,?_,linked.without member (at_plug.mpr held') (toList_splice fs .right c r _),fun red valid => ?_⟩
    · simp [rbtreeDelete,load_of_ne realZ,atZ,Node.make,left,run]
    · exact (splice_redBlack (s := .right) valid).1 (by simpa [originalColor,load_of_ne realZ,atZ,Node.make,left] using red)
  by_cases noRight : r = .nil
  · subst noRight
    obtain ⟨t',run,held',-⟩ := transplant_spec (s := .left) here
    refine ⟨t',_,?_,linked.without member (at_plug.mpr held') (toList_splice fs .left c l _),fun red valid => ?_⟩
    · simp [rbtreeDelete,load_of_ne realZ,atZ,Node.make,left,noLeft,right,run]
    · exact (splice_redBlack (s := .left) valid).1 (by simpa [originalColor,load_of_ne realZ,atZ,Node.make,right] using red)
  have short : r.toList.length ≤ fuel := by
    have bound := length_frames_le fs (.node c l (.task n) r)
    rw [linked.perm.length_eq,List.length_map] at bound
    simp only [toList,List.length_append,List.length_cons] at bound
    omega
  obtain ⟨gs,d,y,w,run,rfl,chain⟩ := treeMin_spec (at_near (s := .right).mp here) noRight short
  obtain ⟨t₁,h,run₁,ready⟩ := takeRight_spec here
  obtain ⟨t₂,run₂,held₂⟩ := takePlace_spec ready noLeft
  refine ⟨t₂,_,?_,linked.without member (at_plug.mpr held₂) (toList_takePlace chain),fun red valid => ?_⟩
  · simp [rbtreeDelete,load_of_ne realZ,atZ,Node.make,left,noLeft,right,noRight,run,run₁,run₂]
  · obtain ⟨-,realY,atY⟩ := (at_append.mpr (at_near (s := .right).mp here)).record
    have valid' : RedBlack (plug (gs ++ ⟨.right,c,.task n,l⟩ :: fs) (branch .right d w y .nil)) := by
      rw [plug_append]
      exact valid
    have kept := (splice_relabel valid' y).1
      (by simpa [originalColor,load_of_ne realZ,atZ,Node.make,left,noLeft,right,noRight,run,load_of_ne realY,atY] using red)
    rw [plug_append] at kept
    exact kept

/-! ### Insertions and deletions -/

inductive Request where
  | insert (n : Nat)
  | delete (n : Nat)

/-- The tree, and the tasks that were inserted and not deleted. -/
structure State where
  tree : RbTree
  linked : List Nat

def start (memory : Ptr → Node Ptr) : State := ⟨⟨memory,.sentinel⟩,[]⟩

def step (key : Ptr → Nat) (fuel : Nat) (s : State) : Request → Option State
  | .insert n => do some ⟨← rbtreeInsert key fuel (.task n) s.tree,n :: s.linked⟩
  | .delete n => do some ⟨← rbtreeDelete fuel (.task n) s.tree,s.linked.erase n⟩

def legal (s : State) : Request → Bool
  | .insert n => n ∉ s.linked
  | .delete n => n ∈ s.linked

/-- A deletion takes a red node out of its place. -/
def meets (fuel : Nat) (s : State) (a : Request) : Bool :=
  legal s a && match a with
    | .insert _ => true
    | .delete n => originalColor fuel (.task n) s.tree = some .red

/-- A red-black search tree of at most `n` linked tasks. -/
def Valid (key : Ptr → Nat) (n : Nat) (s : State) : Prop :=
  (∃ u, Linked key s.tree s.linked u ∧ RedBlack u) ∧ s.linked.length ≤ n

theorem step_valid (n : Nat) (s : State) (a : Request) (enough : n < fuel) (valid : Valid key n s) (ok : meets fuel s a) :
    ∃ s', step key fuel s a = some s' ∧ Valid key (n+1) s' := by
  obtain ⟨⟨u,linked,redBlack⟩,size⟩ := valid
  cases a with
  | insert m =>
    have absent : m ∉ s.linked := by simpa [meets,legal] using ok
    obtain ⟨t,v,run,linked',kept⟩ := rbtreeInsert_spec linked absent (show _ < fuel by omega) (.inl redBlack)
    exact ⟨_,by simp [step,run]; rfl,⟨v,linked',kept redBlack⟩,by simpa using size⟩
  | delete m =>
    obtain ⟨member,red⟩ : m ∈ s.linked ∧ originalColor fuel (.task m) s.tree = some .red := by simpa [meets,legal] using ok
    obtain ⟨t,v,run,linked',kept⟩ := rbtreeDelete_spec linked member (show _ ≤ fuel by omega)
    refine ⟨_,by simp [step,run]; rfl,⟨v,linked',kept red redBlack⟩,?_⟩
    exact Nat.le_trans List.length_erase_le (Nat.le_succ_of_le size)

/-- While only red nodes leave their place in a deletion, the tree stays a red-black search tree of the linked nodes. -/
theorem rbtree_run_valid (key : Ptr → Nat) (memory : Ptr → Node Ptr) (black : (memory .sentinel).color = .black)
    (requests : List Request) (fuel : Nat) (enough : requests.length ≤ fuel)
    (guarded : Guarded (step key fuel) (fun s a => meets fuel s a) (start memory) requests) :
    ∃ s u, run (step key fuel) (start memory) requests = some s ∧ Linked key s.tree s.linked u ∧ RedBlack u := by
  have empty : Valid key 0 (start memory) := by
    refine ⟨⟨.nil,⟨⟨⟨trivial,trivial,rfl,by simp [plug,toList]⟩,by simp [plug,toList],black⟩,?_,?_⟩,rfl,trivial,0,rfl⟩,?_⟩
    · simp [Sorted,toList]
    · simp [start,toList]
    · simp [start]
  obtain ⟨s,ran,⟨u,linked,redBlack⟩,-⟩ := run_counted step_valid requests 0 _ (by omega) empty guarded
  exact ⟨s,u,ran,linked,redBlack⟩

theorem rbtree_run_valid_red : ∃ s u, run (step (fun _ => 0) 4) (start fun _ => ⟨.null,.null,.null,.black⟩)
    [.insert 1, .insert 2, .insert 3, .delete 2] = some s ∧ Linked (fun _ => 0) s.tree s.linked u ∧ RedBlack u :=
  rbtree_run_valid _ _ rfl _ 4 (by decide) (by decide +kernel)

theorem rbtree_delete_reddens :
    let requests := [.insert 1, .insert 2, .delete 1, .insert 3]
    let first := start fun _ => ⟨.null,.null,.null,.black⟩
    Guarded (step (fun _ => 0) 4) (fun s a => legal s a) first requests ∧ (run (step (fun _ => 0) 4) first requests).isSome = false := by
  decide +kernel

end
end Kenux.CfsTree
