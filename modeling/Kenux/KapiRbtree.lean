import Kenux.Runs
import Kenux.TreeHeap

/-!
The red-black tree of the kernel API (`kapi_rbtree.c`): insertion and erasure with rotations
on nodes with parent links. A function returns `none` where the code reads or writes through
`NULL` or where a loop does not end in the given number of rounds. Left and right branches
of the code are one definition over the side. For every comparison that is a total preorder,
every sequence of insertions of unlinked nodes and erasures of linked nodes keeps a
red-black search tree of exactly the linked nodes (`kapi_rb_run_valid`).
-/
namespace Kenux.KapiRbtree
open Kenux.Trees Kenux.TreeHeap

/-- The root pointer and the nodes in memory. -/
structure Rbtree where
  heap : Nat → Node Nat
  root : Nat

variable (t : Rbtree)

def Rbtree.load (p : Nat) : Option (Node Nat) := if p = 0 then none else some (t.heap p)

def Rbtree.store (p : Nat) (f : Node Nat → Node Nat) : Option Rbtree :=
  if p = 0 then none else some { t with heap := Function.update t.heap p (f (t.heap p)) }

def Rbtree.setColor (p : Nat) (c : Color) : Option Rbtree := t.store p (Node.setColor c)

/-- `if (child) child->parent = parent;` -/
def adopt (child parent : Nat) (t : Rbtree) : Option Rbtree :=
  if child ≠ 0 then t.store child (Node.setParent parent) else some t

/-- The pointer to `node`, in the parent or in the root, becomes a pointer to `new`;
    the field on side `s` of the parent is compared first. -/
def relink (s : Side) (parent node new : Nat) (t : Rbtree) : Option Rbtree :=
  if parent ≠ 0 then do
    if (← t.load parent).child s = node then t.store parent (Node.setChild s new)
    else t.store parent (Node.setChild s.flip new)
  else some { t with root := new }

/-- `__kapi_rb_rotate_left` for the left side, `__kapi_rb_rotate_right` for the right. -/
def rotate (s : Side) (node : Nat) (t : Rbtree) : Option Rbtree := do
  let right := (← t.load node).child s.flip
  let parent := (← t.load node).parent
  let t ← t.store node (Node.setChild s.flip ((← t.load right).child s))
  let t ← adopt ((← t.load right).child s) node t
  let t ← t.store right (Node.setChild s node)
  let t ← t.store right (Node.setParent parent)
  let t ← relink s parent node right t
  t.store node (Node.setParent right)

def kapiRbRotateLeft : Nat → Rbtree → Option Rbtree := rotate .left
def kapiRbRotateRight : Nat → Rbtree → Option Rbtree := rotate .right

/-- The place of a child pointer: the root pointer or a field of a node. -/
inductive Link where
  | root
  | child (s : Side) (p : Nat)
  deriving DecidableEq, Repr

def Link.get : Link → Option Nat
  | .root => some t.root
  | .child s p => (t.load p).map (Node.child s)

def Link.set (v : Nat) : Link → Option Rbtree
  | .root => some { t with root := v }
  | .child s p => t.store p (Node.setChild s v)

/-- The descent of `kapi_rb_insert` to an empty place. -/
def descend (cmp : Nat → Nat → Int) (node : Nat) (t : Rbtree) : Nat → Nat → Link → Option (Nat × Link)
  | 0, _, _ => none
  | fuel+1, parent, link => do
    let current ← link.get t
    if current ≠ 0 then
      if cmp node current < 0 then descend cmp node t fuel current (.child .left current)
      else descend cmp node t fuel current (.child .right current)
    else some (parent,link)

/-- One round of the insertion loop, for a parent on side `s` of the grandparent:
    the next node, its parent and the tree. -/
def insertRound (s : Side) (node parent gparent : Nat) (t : Rbtree) : Option (Nat × Nat × Rbtree) := do
  let uncle := (← t.load gparent).child s.flip
  if uncle ≠ 0 ∧ (t.heap uncle).color = .red then do
    let t ← t.setColor uncle .black
    let t ← t.setColor parent .black
    let t ← t.setColor gparent .red
    some (gparent,(← t.load gparent).parent,t)
  else do
    let (node,parent,t) ← if node = (← t.load parent).child s.flip then do
        let t ← rotate s parent t
        some (parent,node,t)
      else some (node,parent,t)
    let t ← t.setColor parent .black
    let t ← t.setColor gparent .red
    let t ← rotate s.flip gparent t
    some (node,parent,t)

/-- The loop of `kapi_rb_insert` that repairs the colours. -/
def insertFixup : Nat → Nat → Nat → Rbtree → Option Rbtree
  | 0, _, _, _ => none
  | fuel+1, node, parent, t =>
    if parent ≠ 0 ∧ (t.heap parent).color = .red then do
      let gparent := (← t.load parent).parent
      let (node,parent,t) ← if parent = (← t.load gparent).left then insertRound .left node parent gparent t
        else insertRound .right node parent gparent t
      insertFixup fuel node parent t
    else some t

def kapiRbInsert (cmp : Nat → Nat → Int) (fuel node : Nat) (t : Rbtree) : Option Rbtree := do
  let (parent,link) ← descend cmp node t fuel 0 .root
  let t ← t.store node (fun _ => { parent := parent, left := 0, right := 0, color := .red })
  let t ← link.set t node
  let t ← insertFixup fuel node parent t
  t.setColor t.root .black

def isBlack (p : Nat) : Bool := p = 0 || (t.heap p).color = .black

/-- Taking a node with at most one child out of the tree: the child that takes its
    place, the parent of that place, the colour of the node and the tree. -/
def unlink (node child : Nat) (t : Rbtree) : Option (Nat × Nat × Color × Rbtree) := do
  let n ← t.load node
  let t ← adopt child n.parent t
  let t ← relink .left n.parent node child t
  some (child,n.parent,n.color,t)

def leftmost (t : Rbtree) : Nat → Nat → Option Nat
  | 0, _ => none
  | fuel+1, node => do
    let left := (← t.load node).left
    if left ≠ 0 then leftmost t fuel left else some node

/-- The node `node`, out of the tree, takes the place of `old`. -/
def takePlace (old node : Nat) (t : Rbtree) : Option Rbtree := do
  let o ← t.load old
  let t ← t.store node (fun _ => { parent := o.parent, left := o.left, right := o.right, color := o.color })
  let t ← relink .left (← t.load old).parent old node t
  let t ← t.store (← t.load old).left (Node.setParent node)
  adopt (← t.load old).right node t

/-- What a round of the erasure loop leaves: the next child and parent, or the end. -/
inductive Round where
  | again (child parent : Nat) (t : Rbtree)
  | stop (t : Rbtree)

/-- A red sibling makes the parent turn down: the sibling, black now. -/
def redSibling (s : Side) (parent : Nat) (t : Rbtree) : Option (Nat × Rbtree) := do
  let sibling := (← t.load parent).child s.flip
  if (← t.load sibling).color = .red then do
    let t ← t.setColor sibling .black
    let t ← t.setColor parent .red
    let t ← rotate s parent t
    some ((← t.load parent).child s.flip,t)
  else some (sibling,t)

/-- A sibling with a red child on the near side only turns down: the new sibling. -/
def nearSibling (s : Side) (parent sibling : Nat) (t : Rbtree) : Option (Nat × Rbtree) := do
  if isBlack t ((← t.load sibling).child s.flip) then do
    let t ← t.setColor ((← t.load sibling).child s) .black
    let t ← t.setColor sibling .red
    let t ← rotate s.flip sibling t
    some ((← t.load parent).child s.flip,t)
  else some (sibling,t)

/-- The parent turns down below a sibling with a red child on the far side. -/
def farSibling (s : Side) (parent sibling : Nat) (t : Rbtree) : Option Rbtree := do
  let t ← t.setColor sibling (← t.load parent).color
  let t ← t.setColor parent .black
  let far := (← t.load sibling).child s.flip
  let t ← if far ≠ 0 then t.setColor far .black else some t
  rotate s parent t

/-- One round of the erasure loop, for a child on side `s` of the parent. -/
def eraseRound (s : Side) (parent : Nat) (t : Rbtree) : Option Round := do
  let (sibling,t) ← redSibling s parent t
  let near := (← t.load sibling).child s
  let far := (← t.load sibling).child s.flip
  if isBlack t near && isBlack t far then do
    let t ← t.setColor sibling .red
    some (.again parent (← t.load parent).parent t)
  else do
    let (sibling,t) ← nearSibling s parent sibling t
    let t ← farSibling s parent sibling t
    some (.stop t)

/-- The loop goes on after a round, or ends with the root for the child. -/
def Round.resume (loop : Nat → Nat → Rbtree → Option (Nat × Rbtree)) : Round → Option (Nat × Rbtree)
  | .again child parent t => loop child parent t
  | .stop t => some (t.root,t)

/-- The loop of `kapi_rb_erase` that repairs the heights: the child it ends with. -/
def eraseFixup : Nat → Nat → Nat → Rbtree → Option (Nat × Rbtree)
  | 0, _, _, _ => none
  | fuel+1, child, parent, t =>
    if child ≠ t.root ∧ isBlack t child then do
      let round ← if child = (← t.load parent).left then eraseRound .left parent t else eraseRound .right parent t
      round.resume (eraseFixup fuel)
    else some (child,t)

/-- The node, or with two children its successor, leaves its place: the child and
    the parent of that place, the colour that is missing there and the tree. -/
def takeOut (fuel node : Nat) (t : Rbtree) : Option (Nat × Nat × Color × Rbtree) := do
  let n ← t.load node
  if n.left = 0 then unlink node n.right t
  else if n.right = 0 then unlink node n.left t
  else do
    let next ← leftmost t fuel n.right
    let (child,parent,color,t) ← unlink next (← t.load next).right t
    let parent := if (← t.load next).parent = node then next else parent
    let t ← takePlace node next t
    some (child,parent,color,t)

def kapiRbErase (fuel node : Nat) (t : Rbtree) : Option Rbtree := do
  let (child,parent,color,t) ← takeOut fuel node t
  if color = .black then do
    let (child,t) ← eraseFixup fuel child parent t
    if child ≠ 0 then t.setColor child .black else some t
  else some t

open Kenux.Trees.ColorTree hiding node nil

/-! ### Rotations -/

/-- The nodes in memory make up the tree around the focus, with `NULL` for nil. -/
abbrev At (fs : List (Frame Nat)) (u : ColorTree Nat) : Prop := Focus 0 t.heap t.root fs u

section
variable {t : Rbtree} {fs : List (Frame Nat)} {u a b e near far : ColorTree Nat} {s : Side} {c d : Color}
  {x y p node : Nat} {cmp : Nat → Nat → Int}

theorem load_of_ne (some : p ≠ 0) : t.load p = .some (t.heap p) := if_neg some

theorem store_of_ne {f : Node Nat → Node Nat} (some : p ≠ 0) :
    t.store p f = .some { t with heap := Function.update t.heap p (f (t.heap p)) } := if_neg some

theorem adopt_eq (child parent : Nat) : adopt child parent t = some { t with heap := adopted 0 t.heap child parent } := by
  by_cases missing : child = 0
  · simp [adopt,adopted,missing]
  · simp [adopt,adopted,missing,store_of_ne]

theorem relink_eq (s : Side) (new : Nat) (held : Held 0 t.heap node fs) : relink s (top 0 fs) node new t =
      some { heap := relinked t.heap new fs, root := if fs = [] then new else t.root } := by
  cases fs with
  | nil => simp [relink,relinked]
  | cons f gs =>
    obtain ⟨someF,near,far⟩ := held
    by_cases side : f.side = s
    · subst side
      simp [relink,relinked,someF,near,load_of_ne,store_of_ne]
    · rw [Side.eq_flip_of_ne side,Side.flip_flip] at far
      simp [relink,relinked,someF,far,load_of_ne,store_of_ne,Side.eq_flip_of_ne side]

theorem rotate_eq (focus : At t fs (branch s c a x (branch s d b y e))) :
    rotate s x t = some ⟨rotated 0 t.heap s c d x y (ptr 0 a) (ptr 0 b) (ptr 0 e) fs,if fs = [] then y else t.root⟩ := by
  obtain ⟨someX,atX⟩ := focus.record
  obtain ⟨someY,atY⟩ := (focus_far.mp focus).record
  obtain ⟨xy,bApart,topApart⟩ := focus.turn_apart
  have held := held_of_focus focus (by rw [ptr_branch]; exact someX)
  rw [ptr_branch] at atX held
  have heldTurned : Held 0 (turned 0 t.heap s c d x y (top 0 fs) (ptr 0 a) (ptr 0 b) (ptr 0 e)) x fs := by
    apply held.congr
    intro some
    obtain ⟨notX,notY,notB⟩ := topApart some
    exact turned_of_ne notX notY notB
  have kept : ∀ h new, relinked h new fs x = h x :=
    fun h new => relinked_of_ne (fun inside => (topApart (focus.top_ne_nil inside)).1)
  have linked : relink s (top 0 fs) x y { t with heap := turned 0 t.heap s c d x y (top 0 fs) (ptr 0 a) (ptr 0 b) (ptr 0 e) } = _ :=
    relink_eq s y heldTurned
  have yKept : ∀ h, adopted 0 h (ptr 0 b) x y = h y := fun h => adopted_of_ne (fun some => (bApart some).2)
  simp only [turned] at linked
  simp [rotate,load_of_ne,store_of_ne,adopt_eq,someX,someY,atX,atY,xy.symm,yKept,linked]
  rw [← turned,kept,turned_x xy bApart,Node.setParent_make]
  rfl

theorem rotate_spec (focus : At t fs (branch s c a x (branch s d b y e))) :
    ∃ t', rotate s x t = some t' ∧ At t' fs (branch s d (branch s c a x b) y e) :=
  ⟨_,rotate_eq focus,focus.rotated⟩

theorem setColor_spec (focus : At t fs (branch s c near x far)) (d : Color) :
    ∃ t', t.setColor x d = some t' ∧ At t' fs (branch s d near x far) :=
  ⟨_,store_of_ne focus.record.1,focus.setColor d⟩

theorem setColor_blacken (focus : At t fs u) (some : u ≠ .nil) :
    ∃ t', t.setColor (ptr 0 u) .black = .some t' ∧ At t' fs u.blacken := by
  obtain ⟨c,near,x,far,rfl⟩ := branch_of_ne_nil .left some
  exact setColor_spec focus .black

/-! ### Insertion -/

variable {f g : Frame Nat}

section
variable (focus : At t (f :: g :: fs) u)
include focus

theorem insert_outer (outer : f.side = g.side) :
    ∃ t₁ t₂ t₃, t.setColor f.cell .black = some t₁ ∧ t₁.setColor g.cell .red = some t₂ ∧
      rotate g.side.flip g.cell t₂ = some t₃ ∧
      At t₃ (⟨g.side,.black,f.cell,branch g.side .red f.sibling g.cell g.sibling⟩ :: fs) u := by
  obtain ⟨t₁,run₁,focus₁⟩ := setColor_spec (focus_up.mp focus) .black
  obtain ⟨t₂,run₂,focus₂⟩ := setColor_spec (focus_up.mp focus₁) .red
  rw [outer,← branch_flip g.side,← branch_flip g.side .black] at focus₂
  obtain ⟨t₃,run₃,focus₃⟩ := rotate_spec focus₂
  refine ⟨t₁,t₂,t₃,run₁,run₂,run₃,focus_near.mp ?_⟩
  simpa using focus₃

theorem insertRound_recolor (uncle : g.sibling.color = .red) (node : Nat) :
    ∃ t', insertRound g.side node f.cell g.cell t = some (g.cell,top 0 fs,t') ∧
      At t' fs (branch g.side .red (branch f.side .black u f.cell f.sibling) g.cell g.sibling.blacken) := by
  have whole := focus_up.mp (focus_up.mp focus)
  obtain ⟨someG,atG⟩ := whole.record
  have away := focus_far.mp whole
  obtain ⟨t₁,run₁,focus₁⟩ := setColor_blacken away (ne_nil_of_red uncle)
  obtain ⟨t₂,run₂,focus₂⟩ := setColor_spec (focus_near.mp (focus_far.mpr focus₁)) .black
  obtain ⟨t₃,run₃,focus₃⟩ := setColor_spec (focus_near.mpr focus₂) .red
  obtain ⟨-,atG₃⟩ := focus₃.record
  have isRed := (rep_red away.tree).mpr uncle
  refine ⟨t₃,?_,focus₃⟩
  simp [insertRound,load_of_ne,someG,atG,isRed,run₁,run₂,run₃,atG₃]

theorem insertRound_turn (colors : RedFocus (f :: g :: fs) u) (red : f.color = .red)
    (uncle : g.sibling.color = .black) :
    ∃ t' f' u', insertRound g.side (ptr 0 u) f.cell g.cell t = some (ptr 0 u',f'.cell,t') ∧ At t' (f' :: fs) u' ∧
      RedFocus (f' :: fs) u' ∧ (plug (f' :: fs) u').toList = (plug (f :: g :: fs) u).toList := by
  have whole := focus_up.mp (focus_up.mp focus)
  obtain ⟨someG,atG⟩ := whole.record
  obtain ⟨someF,atF⟩ := focus.frameRecord
  have notRed : ¬(ptr 0 g.sibling ≠ 0 ∧ (t.heap (ptr 0 g.sibling)).color = .red) := by
    rw [rep_red (focus_far.mp whole).tree,uncle]
    decide
  have someU : ptr 0 u ≠ 0 := (rep_ptr_eq_nil focus.tree).not.mpr (ne_nil_of_red colors.red)
  by_cases outer : f.side = g.side
  · obtain ⟨t₁,t₂,t₃,run₁,run₂,run₃,focus'⟩ := insert_outer focus outer
    have notInner : ptr 0 u ≠ ptr 0 f.sibling := by
      obtain ⟨-,-,apart⟩ := held_of_focus focus someU
      rw [atF,Node.child_flip_make] at apart
      exact apart.symm
    refine ⟨t₃,_,u,?_,focus',colors.turn red uncle g.side,?_⟩
    · rw [outer] at atF
      simp [insertRound,load_of_ne,someG,someF,atG,atF,if_neg notRed,notInner,run₁,run₂,run₃]
    · simp only [plug,toList_plug,Frame.fill,outer]
      rw [← toList_rotate,toList_recolor g.side .red g.color g.cell
        (toList_recolor g.side .black f.color f.cell rfl rfl) rfl]
  · obtain ⟨side,color,p,sibling⟩ := f
    obtain ⟨c,near,x,far,rfl⟩ := branch_of_ne_nil g.side (ne_nil_of_red colors.red)
    have isRed := colors.red
    rw [color_branch] at isRed
    subst isRed red
    obtain rfl := Side.eq_flip_of_ne outer
    obtain ⟨t₀,run₀,focus₀⟩ := rotate_spec (focus_far.mpr focus)
    obtain ⟨t₁,t₂,t₃,run₁,run₂,run₃,focus'⟩ := insert_outer (focus_near.mp focus₀) rfl
    refine ⟨t₃,_,_,?_,focus',colors.inner.turn rfl uncle g.side,?_⟩
    · simp [insertRound,load_of_ne,someG,someF,atG,atF,if_neg notRed,run₀,run₁,run₂,run₃]
    · simp only [plug,toList_plug,Frame.fill]
      generalize g.side = s
      cases s <;> simp [Side.flip,branch,toList]

theorem insertRound_spec (colors : RedFocus (f :: g :: fs) u) (red : f.color = .red) :
    ∃ t' gs v, insertRound g.side (ptr 0 u) f.cell g.cell t = some (ptr 0 v,top 0 gs,t') ∧ At t' gs v ∧
      RedFocus gs v ∧ gs.length ≤ fs.length + 1 ∧ (plug gs v).toList = (plug (f :: g :: fs) u).toList := by
  cases uncle : g.sibling.color with
  | red =>
    obtain ⟨t',run,focus'⟩ := insertRound_recolor focus uncle (ptr 0 u)
    refine ⟨t',fs,_,by simpa using run,focus',colors.recolor red uncle,by omega,?_⟩
    simp only [plug,Frame.fill,toList_plug]
    rw [toList_recolor g.side .red g.color g.cell (toList_recolor f.side .black f.color f.cell rfl rfl)
      (toList_blacken _)]
  | black =>
    obtain ⟨t',f',v,run,focus',colors',order⟩ := insertRound_turn focus colors red uncle
    exact ⟨t',f' :: fs,v,run,focus',colors',by simp,order⟩

end

theorem insertFixup_spec : ∀ (fuel : Nat) (fs : List (Frame Nat)) (u : ColorTree Nat) (t : Rbtree), At t fs u →
    RedFocus fs u → fs.length < fuel → ∃ t' v, insertFixup fuel (ptr 0 u) (top 0 fs) t = some t' ∧ At t' [] v ∧
      v ≠ .nil ∧ RedBlack v.blacken ∧ v.toList = (plug fs u).toList
  | 0, _, _, _, _, _, enough => absurd enough (by omega)
  | fuel+1, [], u, t, focus, colors, _ => ⟨t,u,by simp [insertFixup,top],focus,ne_nil_of_red colors.red,colors.root,rfl⟩
  | fuel+1, f :: fs, u, t, focus, colors, enough => by
    obtain ⟨someF,atF⟩ := focus.frameRecord
    cases parent : f.color with
    | black =>
      refine ⟨t,plug (f :: fs) u,?_,focus_plug.mpr focus,?_,?_,rfl⟩
      · simp [insertFixup,top,atF,parent]
      · exact plug_ne_nil _ (.inl (List.cons_ne_nil _ _))
      · rw [blacken_of_black (plug_root_black colors.frames)]
        exact colors.done parent
    | red =>
      obtain ⟨g,gs,rfl,-⟩ := colors.parent parent
      obtain ⟨t₁,gs₁,v₁,run₁,focus₁,colors₁,shorter,order₁⟩ := insertRound_spec focus colors parent
      obtain ⟨t',v,run,focus',some,valid,order⟩ := insertFixup_spec fuel gs₁ v₁ t₁ focus₁ colors₁ (by simp at enough; omega)
      refine ⟨t',v,?_,focus',some,valid,order.trans order₁⟩
      have up := focus_up.mp focus
      obtain ⟨someG,-⟩ := up.frameRecord
      have chosen := (held_of_focus up (by simpa [Frame.fill] using someF)).side
        (fun s => (insertRound s (ptr 0 u) f.cell g.cell t).bind fun next => insertFixup fuel next.1 next.2.1 next.2.2)
      simp only [Frame.fill,ptr_branch,run₁,Option.bind_some,run] at chosen
      simpa [insertFixup,top,atF,parent,someF,someG,load_of_ne] using chosen

/-- The relation `cmp a b ≤ 0` is a total preorder, and the sign of `cmp` tells the
    two directions apart. -/
structure TotalPreorder (cmp : Nat → Nat → Int) : Prop where
  swap : ∀ a b, cmp a b < 0 ↔ 0 < cmp b a
  trans : ∀ a b c, cmp a b ≤ 0 → cmp b c ≤ 0 → cmp a c ≤ 0

theorem TotalPreorder.le_of_not_lt (order : TotalPreorder cmp) {a b : Nat} (more : ¬cmp a b < 0) : cmp b a ≤ 0 := by
  rw [order.swap] at more
  omega

/-- The place of the pointer to the focus. -/
def place : List (Frame Nat) → Link
  | [] => .root
  | f :: _ => .child f.side f.cell

private theorem place_nil : place [] = .root := rfl

private theorem place_cons : place (f :: fs) = .child f.side f.cell := rfl

private theorem place_get (focus : At t fs u) : (place fs).get t = some (ptr 0 u) := by
  cases fs with
  | nil => exact congrArg some focus.rootIs
  | cons f gs =>
    obtain ⟨someF,atF⟩ := focus.frameRecord
    simp [place_cons,Link.get,load_of_ne someF,atF]

def Sorted (cmp : Nat → Nat → Int) (u : ColorTree Nat) : Prop := u.toList.Pairwise (fun a b => cmp a b ≤ 0)

theorem descend_spec (order : TotalPreorder cmp) :
    ∀ (fuel : Nat) (fs : List (Frame Nat)) (u : ColorTree Nat), At t fs u → u.toList.length < fuel → Sorted cmp u →
      Between (fun a b => cmp a b ≤ 0) node fs → ∃ gs, descend cmp node t fuel (top 0 fs) (place fs) = some (top 0 gs,place gs) ∧
        plug gs .nil = plug fs u ∧ Between (fun a b => cmp a b ≤ 0) node gs
  | 0, _, _, _, enough, _, _ => absurd enough (by omega)
  | fuel+1, fs, .nil, focus, _, _, between => by
    refine ⟨fs,?_,rfl,between⟩
    simp [descend,place_get focus,ptr]
  | fuel+1, fs, .node c l x r, focus, enough, sorted, between => by
    have below : Sorted cmp l ∧ Sorted cmp r := by
      simp only [Sorted,toList,List.pairwise_append,List.pairwise_cons] at sorted
      exact ⟨sorted.1,sorted.2.1.2⟩
    simp only [toList,List.length_append,List.length_cons] at enough
    have someX : x ≠ 0 := focus.tree.1
    by_cases less : cmp node x < 0
    · have down : At t (⟨.left,c,x,r⟩ :: fs) l := (focus_near (s := .left)).mp focus
      obtain ⟨gs,run,same,between'⟩ := descend_spec order fuel _ l down (by omega) below.1 (between.left order.trans sorted (by omega))
      refine ⟨gs,?_,same,between'⟩
      simpa [descend,place_get focus,place_cons,ptr,someX,less] using run
    · have down : At t (⟨.right,c,x,l⟩ :: fs) r := (focus_near (s := .right)).mp focus
      obtain ⟨gs,run,same,between'⟩ := descend_spec order fuel _ r down (by omega) below.2 (between.right order.trans sorted (order.le_of_not_lt less))
      refine ⟨gs,?_,same,between'⟩
      simpa [descend,place_get focus,place_cons,ptr,someX,less] using run

theorem attach_spec (focus : At t fs .nil) (fresh : node ∉ (plug fs .nil).toList) (some : node ≠ 0) :
    ∃ t₁ t₂, t.store node (fun _ => { parent := top 0 fs, left := 0, right := 0, color := .red }) = .some t₁ ∧
      (place fs).set t₁ node = .some t₂ ∧ At t₂ fs (branch .left .red .nil node .nil) := by
  cases fs with
  | nil => exact ⟨_,_,store_of_ne some,rfl,focus.attach some fresh (by simp) nofun (by simp [frameCells]) (by simp)⟩
  | cons f gs =>
    obtain ⟨someF,-⟩ := focus.frameRecord
    have outside : node ∉ frameCells (f :: gs) := by
      have member := (toList_plug_perm (f :: gs) .nil).mem_iff.not.mp fresh
      simpa [toList] using member
    have apart : f.cell ≠ node := by
      rintro rfl
      exact outside (by simp [frameCells])
    refine ⟨_,_,store_of_ne some,store_of_ne someF,focus.attach some fresh ?_ ?_ ?_ (by simp)⟩
    · simp [apart.symm]
    · intro g hs same
      cases same
      simp [apart]
    · intro i member notTop
      have other := ne_of_mem_of_not_mem member outside
      simp only [top] at notTop
      simp [other,notTop]

/-- A tree in memory that is a red-black search tree. -/
structure Valid (cmp : Nat → Nat → Int) (t : Rbtree) (u : ColorTree Nat) : Prop where
  focus : At t [] u
  redBlack : RedBlack u
  sorted : Sorted cmp u

theorem kapiRbInsert_spec {fuel : Nat} (order : TotalPreorder cmp) (valid : Valid cmp t u)
    (fresh : node ∉ u.toList) (some : node ≠ 0) (enough : u.toList.length < fuel) :
    ∃ t' v, kapiRbInsert cmp fuel node t = .some t' ∧ Valid cmp t' v ∧ ∀ i, i ∈ v.toList ↔ i = node ∨ i ∈ u.toList := by
  have everywhere : Between (fun a b => cmp a b ≤ 0) node [] := ⟨by simp [before],by simp [after]⟩
  obtain ⟨fs,run,same,between⟩ := descend_spec order fuel [] u valid.focus enough valid.sorted everywhere
  subst same
  obtain ⟨t₁,t₂,run₁,run₂,focus₂⟩ := attach_spec (focus_plug.mp valid.focus) fresh some
  have short := length_frames_le fs (.nil : ColorTree Nat)
  obtain ⟨t₃,v,run₃,focus₃,someV,redBlack,cells⟩ := insertFixup_spec fuel fs _ t₂ focus₂ (RedFocus.leaf node valid.redBlack) (by omega)
  obtain ⟨t₄,run₄,focus₄⟩ := setColor_blacken focus₃ someV
  refine ⟨t₄,v.blacken,?_,⟨focus₄,redBlack,?_⟩,?_⟩
  · rw [ptr_branch] at run₃
    have root : t₃.root = ptr 0 v := focus₃.rootIs
    simp only [top_nil,place_nil] at run
    simp [kapiRbInsert,run,run₁,run₂,run₃,root,run₄]
  · rw [Sorted,toList_blacken,cells]
    exact between.insert valid.sorted
  · intro i
    rw [toList_blacken,cells,(toList_plug_perm ..).mem_iff,(toList_plug_perm ..).mem_iff]
    simp [branch,toList]

end
end Kenux.KapiRbtree
