import Mathlib.Algebra.Group.Nat.Defs
import Mathlib.Data.List.Nodup
import Mathlib.Data.List.Perm.Basic
import Mathlib.Tactic.Common

/-!
Binary trees with coloured cells, and their red-black invariants. A tree is seen through a
focus: a subtree and the frames above it, the innermost first (`plug`). `branch s` builds a
node from its child on side `s` and its child on the other side. The heights that the
frames expect of the subtree (`HoleHeight`) and their colours (`FrameColors`) say when the
whole tree is red-black (`plug_redBlack`). The repairs after an insertion start from a red
node under a red node (`RedFocus`), those after an erasure from a subtree that lacks a black
node (`Deficit`).
-/
namespace Kenux.Trees

inductive Color where
  | red
  | black
  deriving DecidableEq, Repr

/-- What a node of this colour adds to the height of its children. -/
def Color.weight : Color → Nat
  | .red => 0
  | .black => 1

inductive Side where
  | left
  | right
  deriving DecidableEq, Repr

def Side.flip : Side → Side
  | .left => .right
  | .right => .left

@[simp] theorem Side.flip_flip (s : Side) : s.flip.flip = s := by cases s <;> rfl

@[simp] theorem Side.flip_ne (s : Side) : s.flip ≠ s := by cases s <;> decide

@[simp] theorem Side.ne_flip (s : Side) : s ≠ s.flip := by cases s <;> decide

variable {s : Side}

theorem Side.eq_flip_of_ne {t : Side} (different : s ≠ t) : s = t.flip := by
  cases s <;> cases t <;> simp_all [Side.flip]

inductive ColorTree (Cell : Type*) where
  | nil
  | node (color : Color) (left : ColorTree Cell) (cell : Cell) (right : ColorTree Cell)

/-- A node above the focus: the side of the focus, and what the node holds besides. -/
structure Frame (Cell : Type*) where
  side : Side
  color : Color
  cell : Cell
  sibling : ColorTree Cell

section
variable {Cell : Type*} {c : Color} {near : ColorTree Cell} {x : Cell} {far t sibling : ColorTree Cell}
  {fs gs : List (Frame Cell)} {n : Nat}

namespace ColorTree

def color : ColorTree Cell → Color
  | nil => .black
  | node c _ _ _ => c

def toList : ColorTree Cell → List Cell
  | nil => []
  | node _ l x r => l.toList ++ x :: r.toList

/-- The node with its child on side `s` and its other child. -/
def branch (s : Side) (c : Color) (near : ColorTree Cell) (x : Cell) (far : ColorTree Cell) : ColorTree Cell :=
  match s with
  | .left => node c near x far
  | .right => node c far x near

def blacken : ColorTree Cell → ColorTree Cell
  | nil => nil
  | node _ l x r => node .black l x r

def Colored : ColorTree Cell → Prop
  | nil => True
  | node c l _ r => (c = .red → l.color = .black ∧ r.color = .black) ∧ l.Colored ∧ r.Colored

/-- Every path from the root to the end of a branch has so many black nodes. -/
def Height : ColorTree Cell → Nat → Prop
  | nil, n => n = 0
  | node .red l _ r, n => l.Height n ∧ r.Height n
  | node .black l _ r, n => ∃ m, n = m+1 ∧ l.Height m ∧ r.Height m

section
variable (s c near x far n)

@[simp] theorem branch_flip :
    branch s.flip c near x far = branch s c far x near := by
  cases s <;> rfl

@[simp] theorem color_branch :
    (branch s c near x far).color = c := by
  cases s <;> rfl

theorem branch_ne_nil :
    branch s c near x far ≠ nil := by
  cases s <;> simp [branch]

@[simp] theorem blacken_branch :
    (branch s c near x far).blacken = branch s .black near x far := by
  cases s <;> rfl

theorem colored_branch :
    (branch s c near x far).Colored ↔
      (c = .red → near.color = .black ∧ far.color = .black) ∧ near.Colored ∧ far.Colored := by
  cases s with
  | left => rfl
  | right => simp only [branch,Colored]; tauto

theorem height_red :
    (branch s .red near x far).Height n ↔ near.Height n ∧ far.Height n := by
  cases s with
  | left => rfl
  | right => exact and_comm

theorem height_black :
    (branch s .black near x far).Height n ↔ ∃ m, n = m+1 ∧ near.Height m ∧ far.Height m := by
  cases s with
  | left => rfl
  | right =>
    exact exists_congr (fun m => and_congr_right (fun _ => and_comm))

theorem toList_branch_perm :
    (branch s c near x far).toList.Perm (x :: (near.toList ++ far.toList)) := by
  cases s with
  | left => exact List.perm_middle
  | right => exact List.perm_middle.trans (List.Perm.cons x List.perm_append_comm)

end

theorem branch_of_ne_nil (s : Side) (some : t ≠ nil) : ∃ c near x far, t = branch s c near x far := by
  cases t with
  | nil => exact absurd rfl some
  | node c l x r =>
    cases s with
    | left => exact ⟨c,l,x,r,rfl⟩
    | right => exact ⟨c,r,x,l,rfl⟩

theorem ne_nil_of_red (red : t.color = .red) : t ≠ nil := by
  rintro rfl
  cases red

@[simp] theorem color_blacken (t : ColorTree Cell) : t.blacken.color = .black := by cases t <;> rfl

@[simp] theorem toList_blacken (t : ColorTree Cell) : t.blacken.toList = t.toList := by cases t <;> rfl

theorem blacken_of_black (black : t.color = .black) : t.blacken = t := by
  cases t with
  | nil => rfl
  | node c l x r =>
    simp only [color] at black
    rw [blacken,black]

theorem height_branch
    (nearHeight : near.Height n) (farHeight : far.Height n) : (branch s c near x far).Height (n + c.weight) := by
  cases c with
  | red => exact (height_red s near x far n).mpr ⟨nearHeight,farHeight⟩
  | black => exact (height_black s near x far _).mpr ⟨n,rfl,nearHeight,farHeight⟩

theorem colored_blacken (colored : t.Colored) : t.blacken.Colored := by
  cases t with
  | nil => trivial
  | node c l x r => exact ⟨nofun,colored.2⟩

theorem height_blacken (red : t.color = .red) (height : t.Height n) : t.blacken.Height (n+1) := by
  obtain ⟨c,l,x,r,rfl⟩ := branch_of_ne_nil .left (ne_nil_of_red red)
  subst red
  exact ⟨n,rfl,(height_red ..).mp height⟩

theorem ne_nil_of_height (height : t.Height (n+1)) : t ≠ nil := by
  rintro rfl
  simp [Height] at height

theorem toList_rotate (s : Side) (c d : Color) (a : ColorTree Cell) (x : Cell) (b : ColorTree Cell) (y : Cell) (e : ColorTree Cell) :
    (branch s d (branch s c a x b) y e).toList = (branch s c a x (branch s d b y e)).toList := by
  cases s <;> simp [branch,toList]

theorem toList_recolor (s : Side) (c d : Color) {near' : ColorTree Cell} (x : Cell) {far' : ColorTree Cell}
    (nears : near.toList = near'.toList) (fars : far.toList = far'.toList) :
    (branch s c near x far).toList = (branch s d near' x far').toList := by
  cases s <;> simp [branch,toList,nears,fars]

end ColorTree

open ColorTree

/-- The node of a frame around a subtree. -/
def Frame.fill (f : Frame Cell) (t : ColorTree Cell) : ColorTree Cell := branch f.side f.color t f.cell f.sibling

/-- The whole tree around a focus. -/
def plug : List (Frame Cell) → ColorTree Cell → ColorTree Cell
  | [], t => t
  | f :: fs, t => plug fs (f.fill t)

theorem plug_append (gs fs : List (Frame Cell)) (t : ColorTree Cell) : plug (gs ++ fs) t = plug fs (plug gs t) := by
  induction gs generalizing t with
  | nil => rfl
  | cons g gs ih => exact ih (g.fill t)

theorem exists_plug_of_mem (member : x ∈ t.toList) : ∃ fs c l r, t = plug fs (node c l x r) := by
  induction t with
  | nil => simp [toList] at member
  | node c l y r left right =>
    simp only [toList,List.mem_append,List.mem_cons] at member
    rcases member with early | rfl | late
    · obtain ⟨fs,d,l',r',rfl⟩ := left early
      exact ⟨fs ++ [⟨.left,c,y,r⟩],d,l',r',by rw [plug_append]; rfl⟩
    · exact ⟨[],c,l,r,rfl⟩
    · obtain ⟨fs,d,l',r',rfl⟩ := right late
      exact ⟨fs ++ [⟨.right,c,y,l⟩],d,l',r',by rw [plug_append]; rfl⟩

/-- The cells before those of the focus. -/
def before : List (Frame Cell) → List Cell
  | [] => []
  | f :: fs => before fs ++ match f.side with
    | .left => []
    | .right => f.sibling.toList ++ [f.cell]

/-- The cells after those of the focus. -/
def after : List (Frame Cell) → List Cell
  | [] => []
  | f :: fs => (match f.side with
    | .left => f.cell :: f.sibling.toList
    | .right => []) ++ after fs

theorem before_append (gs fs : List (Frame Cell)) : before (gs ++ fs) = before fs ++ before gs := by
  induction gs with
  | nil => simp [before]
  | cons g gs ih => simp [before,ih]

/-- The cells of the frames, in no particular order. -/
def frameCells : List (Frame Cell) → List Cell
  | [] => []
  | f :: fs => f.cell :: (f.sibling.toList ++ frameCells fs)

theorem frameCells_append (gs fs : List (Frame Cell)) : frameCells (gs ++ fs) = frameCells gs ++ frameCells fs := by
  induction gs with
  | nil => rfl
  | cons g gs ih => simp [frameCells,ih]

section
variable (fs : List (Frame Cell))

theorem plug_ne_nil (some : fs ≠ [] ∨ t ≠ nil) : plug fs t ≠ nil := by
  induction fs generalizing t with
  | nil => simpa [plug] using some
  | cons f fs ih =>
    apply ih
    rw [Frame.fill]
    cases f.side <;> simp [branch]

theorem toList_plug (t : ColorTree Cell) :
    (plug fs t).toList = before fs ++ t.toList ++ after fs := by
  induction fs generalizing t with
  | nil => simp [plug,before,after]
  | cons f fs ih =>
    rw [plug,ih]
    cases f with
    | mk side c x sibling => cases side <;> simp [Frame.fill,branch,toList,before,after]

theorem toList_splice (s : Side) (c : Color) (t : ColorTree Cell) (x : Cell) :
    ∃ early late, (plug fs (branch s c t x .nil)).toList = early ++ x :: late ∧ (plug fs t).toList = early ++ late := by
  cases s with
  | left => exact ⟨before fs ++ t.toList,after fs,by simp [toList_plug,branch,toList],by simp [toList_plug]⟩
  | right => exact ⟨before fs,t.toList ++ after fs,by simp [toList_plug,branch,toList],by simp [toList_plug]⟩

theorem toList_plug_perm (t : ColorTree Cell) :
    (plug fs t).toList.Perm (t.toList ++ frameCells fs) := by
  induction fs generalizing t with
  | nil => simp [plug,frameCells]
  | cons f fs ih =>
    refine (ih (f.fill t)).trans ?_
    refine ((toList_branch_perm f.side f.color t f.cell f.sibling).append_right (frameCells fs)).trans ?_
    simp only [List.cons_append,List.append_assoc]
    exact List.perm_middle.symm

theorem length_frames_le (t : ColorTree Cell) :
    fs.length + t.toList.length ≤ (plug fs t).toList.length := by
  induction fs generalizing t with
  | nil => simp [plug]
  | cons f fs ih =>
    have rest := ih (f.fill t)
    have one := (toList_branch_perm f.side f.color t f.cell f.sibling).length_eq
    simp only [List.length_cons,List.length_append] at one
    rw [plug,List.length_cons]
    rw [Frame.fill] at rest ⊢
    omega

end

/-- The leftmost node of the right subtree takes the place of the root. -/
theorem toList_takePlace {d : Color} {l : ColorTree Cell} {y : Cell} (leftmost : before gs = []) : ∃ early late,
      (plug fs (.node c l x (plug gs (branch .right d t y .nil)))).toList = early ++ x :: late ∧
        (plug fs (.node c l y (plug gs t))).toList = early ++ late :=
  ⟨before fs ++ l.toList,y :: (t.toList ++ after gs) ++ after fs,by simp [toList_plug,toList,branch,leftmost],
    by simp [toList_plug,toList,leftmost]⟩

/-! ### Places in an order -/

/-- The cell belongs between those before and those after the focus. -/
def Between (le : Cell → Cell → Prop) (x : Cell) (fs : List (Frame Cell)) : Prop :=
  (∀ i ∈ before fs, le i x) ∧ ∀ i ∈ after fs, le x i

section
variable {le : Cell → Cell → Prop} {x y : Cell} {fs : List (Frame Cell)} {c : Color} {l r : ColorTree Cell}

theorem Between.left (trans : ∀ a b c, le a b → le b c → le a c) (between : Between le x fs)
    (sorted : (node c l y r).toList.Pairwise le) (less : le x y) : Between le x (⟨.left,c,y,r⟩ :: fs) := by
  obtain ⟨early,late⟩ := between
  refine ⟨by simpa [before] using early,?_⟩
  simp only [toList,List.pairwise_append,List.pairwise_cons] at sorted
  intro i member
  simp only [after,List.cons_append,List.mem_cons,List.mem_append] at member
  rcases member with rfl | right | above
  · exact less
  · exact trans _ y _ less (sorted.2.1.1 i right)
  · exact late i above

theorem Between.right (trans : ∀ a b c, le a b → le b c → le a c) (between : Between le x fs)
    (sorted : (node c l y r).toList.Pairwise le) (more : le y x) : Between le x (⟨.right,c,y,l⟩ :: fs) := by
  obtain ⟨early,late⟩ := between
  refine ⟨?_,by simpa [after] using late⟩
  simp only [toList,List.pairwise_append] at sorted
  intro i member
  simp only [before,List.mem_append,List.mem_singleton] at member
  rcases member with above | left | rfl
  · exact early i above
  · exact trans _ y _ (sorted.2.2 i left y (by simp)) more
  · exact more

theorem Between.insert (between : Between le x fs) (sorted : (plug fs nil).toList.Pairwise le) :
    (plug fs (branch .left c nil x nil)).toList.Pairwise le := by
  obtain ⟨early,late⟩ := between
  simp only [toList_plug,toList,branch,List.append_nil,List.nil_append] at sorted ⊢
  obtain ⟨first,second,across⟩ := List.pairwise_append.mp sorted
  rw [List.append_assoc,List.singleton_append,List.pairwise_append,List.pairwise_cons]
  exact ⟨first,⟨late,second⟩,fun i inFirst => List.forall_mem_cons.mpr ⟨early i inFirst,across i inFirst⟩⟩

end

/-! ### Red-black trees -/

/-- A black root, no red node with a red child, and one black height. -/
def RedBlack (t : ColorTree Cell) : Prop := t.color = .black ∧ t.Colored ∧ ∃ n, t.Height n

def ColorTree.depth : ColorTree Cell → Nat
  | .nil => 0
  | .node _ l _ r => max l.depth r.depth + 1

theorem depth_le_height (colored : t.Colored) (height : t.Height n) : t.depth ≤ 2 * n + 1 - t.color.weight := by
  induction t generalizing n with
  | nil => exact Nat.zero_le _
  | node c l x r left right =>
    obtain ⟨black,coloredL,coloredR⟩ := colored
    cases c with
    | red =>
      have left := left coloredL height.1
      have right := right coloredR height.2
      rw [(black rfl).1,Color.weight] at left
      rw [(black rfl).2,Color.weight] at right
      simp only [depth,color,Color.weight]
      omega
    | black =>
      obtain ⟨m,rfl,heightL,heightR⟩ := height
      have left := left coloredL heightL
      have right := right coloredR heightR
      simp only [depth,color,Color.weight]
      omega

theorem pow_height_le (height : t.Height n) : 2^n ≤ t.toList.length + 1 := by
  induction t generalizing n with
  | nil => simp [show n = 0 from height]
  | node c l x r left right =>
    simp only [toList,List.length_append,List.length_cons]
    cases c with
    | red =>
      have left := left height.1
      omega
    | black =>
      obtain ⟨m,rfl,heightL,heightR⟩ := height
      have left := left heightL
      have right := right heightR
      omega

theorem RedBlack.depth_le (valid : RedBlack t) : t.depth ≤ 2 * Nat.log2 (t.toList.length + 1) := by
  obtain ⟨black,colored,n,height⟩ := valid
  have shallow := depth_le_height colored height
  have low := (Nat.le_log2 (by omega)).mpr (pow_height_le height)
  rw [black,Color.weight] at shallow
  omega

/-- The frames expect a subtree of height `n` and make a tree of height `total`. -/
def HoleHeight : List (Frame Cell) → Nat → Nat → Prop
  | [], n, total => n = total
  | f :: fs, n, total => f.sibling.Height n ∧ HoleHeight fs (n + f.color.weight) total

/-- The frames are coloured well around a black subtree: a red frame has a black
    sibling and a black frame above it. -/
def FrameColors : List (Frame Cell) → Prop
  | [] => True
  | f :: fs => f.sibling.Colored ∧ FrameColors fs ∧
      (f.color = .red → f.sibling.color = .black ∧ ∃ g gs, fs = g :: gs ∧ g.color = .black)

variable {total : Nat}

theorem plug_height (height : t.Height n)
    (hole : HoleHeight fs n total) : (plug fs t).Height total := by
  induction fs generalizing t n with
  | nil => exact hole ▸ height
  | cons f fs ih => exact ih (height_branch height hole.1) hole.2

theorem plug_colored (colors : FrameColors fs) (colored : t.Colored)
    (top : t.color = .red → ∀ f gs, fs = f :: gs → f.color = .black) : (plug fs t).Colored := by
  induction fs generalizing t with
  | nil => exact colored
  | cons f fs ih =>
    obtain ⟨sibling,rest,red⟩ := colors
    refine ih rest ((colored_branch ..).mpr ⟨fun isRed => ⟨?_,(red isRed).1⟩,colored,sibling⟩) ?_
    · cases here : t.color with
      | black => rfl
      | red => rw [top here f fs rfl] at isRed; cases isRed
    · intro isRed g gs same
      obtain ⟨-,h,hs,same',black⟩ := red (by simpa [Frame.fill] using isRed)
      rw [same] at same'
      cases same'
      exact black

theorem plug_root_black {f : Frame Cell} (colors : FrameColors (f :: fs)) : (plug (f :: fs) t).color = .black := by
  induction fs generalizing f t with
  | nil =>
    cases here : f.color with
    | black => simp [plug,Frame.fill,here]
    | red =>
      obtain ⟨-,-,red⟩ := colors
      obtain ⟨-,g,gs,impossible,-⟩ := red here
      cases impossible
  | cons g fs ih => exact ih colors.2.1

/-- A black subtree of the expected height makes the whole tree red-black. -/
theorem plug_redBlack (colors : FrameColors fs)
    (black : t.color = .black) (colored : t.Colored) (height : t.Height n) (hole : HoleHeight fs n total) :
    RedBlack (plug fs t) := by
  refine ⟨?_,plug_colored colors colored (fun red => ?_),total,plug_height height hole⟩
  · cases fs with
    | nil => exact black
    | cons f fs => exact plug_root_black colors
  · rw [black] at red
    cases red

/-- What a red-black tree says about a focus in it. -/
theorem frames_of_plug (black : (plug fs t).color = .black)
    (colored : (plug fs t).Colored) (height : (plug fs t).Height total) :
    FrameColors fs ∧ t.Colored ∧ (t.color = .red → ∃ f gs, fs = f :: gs ∧ f.color = .black) ∧
      ∃ n, t.Height n ∧ HoleHeight fs n total := by
  induction fs generalizing t with
  | nil => exact ⟨trivial,colored,fun red => absurd (red.symm.trans black) nofun,total,height,rfl⟩
  | cons f fs ih =>
    obtain ⟨frames,here,above,n,size,hole⟩ := ih black colored height
    obtain ⟨children,tree,sibling⟩ := (colored_branch ..).mp here
    have above : f.color = .red → ∃ g gs, fs = g :: gs ∧ g.color = .black :=
      fun red => above (by rw [Frame.fill,color_branch,red])
    refine ⟨⟨sibling,frames,fun red => ⟨(children red).2,above red⟩⟩,tree,?_,?_⟩
    · intro red
      refine ⟨f,fs,rfl,?_⟩
      cases color : f.color with
      | black => rfl
      | red => exact absurd (red.symm.trans (children color).1) nofun
    · cases color : f.color with
      | red =>
        rw [Frame.fill,color,height_red] at size
        exact ⟨n,size.1,size.2,by rw [color]; exact hole⟩
      | black =>
        rw [Frame.fill,color,height_black] at size
        obtain ⟨m,rfl,near,far⟩ := size
        exact ⟨m,near,far,by rw [color]; exact hole⟩

/-! ### A red node under a red node -/

/-- The focus has the expected height and a red root, perhaps under a red frame. -/
structure RedFocus (fs : List (Frame Cell)) (t : ColorTree Cell) : Prop where
  frames : FrameColors fs
  colored : t.Colored
  red : t.color = .red
  heights : ∃ n total, t.Height n ∧ HoleHeight fs n total

section
variable {fs : List (Frame Cell)} {t : ColorTree Cell} {f g : Frame Cell}

theorem RedFocus.leaf (x : Cell) (valid : RedBlack (plug fs nil)) : RedFocus fs (branch .left .red nil x nil) := by
  obtain ⟨black,colored,total,height⟩ := valid
  obtain ⟨frames,-,-,n,size,hole⟩ := frames_of_plug black colored height
  exact ⟨frames,by simp [branch,Colored,color],color_branch ..,n,total,(height_red ..).mpr ⟨size,size⟩,hole⟩

theorem RedFocus.root (focus : RedFocus [] t) : RedBlack t.blacken := by
  obtain ⟨n,total,height,-⟩ := focus.heights
  exact ⟨color_blacken t,colored_blacken focus.colored,n+1,height_blacken focus.red height⟩

theorem RedFocus.done (focus : RedFocus (f :: fs) t) (black : f.color = .black) : RedBlack (plug (f :: fs) t) := by
  obtain ⟨n,total,height,hole⟩ := focus.heights
  refine ⟨plug_root_black focus.frames,plug_colored focus.frames focus.colored ?_,total,plug_height height hole⟩
  intro _ g gs same
  cases same
  exact black

/-- A red frame has a black frame above it. -/
theorem RedFocus.parent (focus : RedFocus (f :: fs) t) (red : f.color = .red) :
    ∃ g gs, fs = g :: gs ∧ g.color = .black := (focus.frames.2.2 red).2

/-- With a red uncle the parent and the uncle turn black and the grandparent red. -/
theorem RedFocus.recolor (focus : RedFocus (f :: g :: fs) t) (red : f.color = .red) (uncle : g.sibling.color = .red) :
    RedFocus fs (branch g.side .red (branch f.side .black t f.cell f.sibling) g.cell g.sibling.blacken) := by
  obtain ⟨n,total,height,sibHeight,uncleHeight,hole⟩ := focus.heights
  obtain ⟨sibling,⟨uncleColored,rest,-⟩,-⟩ := focus.frames
  obtain ⟨g',gs,same,black⟩ := focus.parent red
  cases same
  rw [red] at uncleHeight hole
  rw [black] at hole
  refine ⟨rest,?_,color_branch ..,n+1,total,?_,hole⟩
  · refine (colored_branch ..).mpr ⟨fun _ => ⟨color_branch ..,color_blacken _⟩,?_,colored_blacken uncleColored⟩
    exact (colored_branch ..).mpr ⟨nofun,focus.colored,sibling⟩
  · exact (height_red ..).mpr ⟨height_branch height sibHeight,height_blacken uncle uncleHeight⟩

/-- With a black uncle and the node on the outer side the grandparent turns down. -/
theorem RedFocus.turn (focus : RedFocus (f :: g :: fs) t) (red : f.color = .red) (uncle : g.sibling.color = .black)
    (s : Side) : RedFocus (⟨s,.black,f.cell,branch s .red f.sibling g.cell g.sibling⟩ :: fs) t := by
  obtain ⟨n,total,height,sibHeight,uncleHeight,hole⟩ := focus.heights
  obtain ⟨sibling,⟨uncleColored,rest,-⟩,fRed⟩ := focus.frames
  obtain ⟨g',gs,same,black⟩ := focus.parent red
  cases same
  rw [red] at uncleHeight hole
  rw [black] at hole
  refine ⟨⟨(colored_branch ..).mpr ⟨?_,sibling,uncleColored⟩,rest,nofun⟩,focus.colored,focus.red,
    n,total,height,?_,hole⟩
  · exact fun _ => ⟨(fRed red).1,uncle⟩
  · exact (height_red ..).mpr ⟨sibHeight,uncleHeight⟩

/-- A red node on the inner side: its parent turns down below it. -/
theorem RedFocus.inner {p : Cell} (focus : RedFocus (⟨s.flip,.red,p,sibling⟩ :: g :: fs) (branch s .red near x far)) :
    RedFocus (⟨s,.red,x,far⟩ :: g :: fs) (branch s .red sibling p near) := by
  obtain ⟨n,total,height,sibHeight,uncleHeight,hole⟩ := focus.heights
  obtain ⟨sibColored,rest,red⟩ := focus.frames
  obtain ⟨nearHeight,farHeight⟩ := (height_red ..).mp height
  obtain ⟨childColors,nearColored,farColored⟩ := (colored_branch ..).mp focus.colored
  obtain ⟨nearBlack,farBlack⟩ := childColors rfl
  refine ⟨⟨farColored,rest,fun _ => ⟨farBlack,(red rfl).2⟩⟩,?_,color_branch ..,n,total,?_,farHeight,uncleHeight,hole⟩
  · exact (colored_branch ..).mpr ⟨fun _ => ⟨(red rfl).1,nearBlack⟩,sibColored,nearColored⟩
  · exact (height_red ..).mpr ⟨sibHeight,nearHeight⟩

end

/-! ### A subtree that lacks a black node -/

/-- The focus is one black node short of what its frames expect; its root may be
    a red node with a red child, as it turns black when it is red. -/
structure Deficit (fs : List (Frame Cell)) (t : ColorTree Cell) : Prop where
  frames : FrameColors fs
  colored : t.blacken.Colored
  heights : ∃ n total, t.Height n ∧ HoleHeight fs (n+1) total

section
variable {fs : List (Frame Cell)} {t : ColorTree Cell} {f : Frame Cell} {s : Side} {c : Color} {x y : Cell}
  {near far : ColorTree Cell}

/-- A red root made black makes up for the missing node. -/
theorem Deficit.red (deficit : Deficit fs t) (red : t.color = .red) : RedBlack (plug fs t.blacken) := by
  obtain ⟨n,total,height,hole⟩ := deficit.heights
  exact plug_redBlack deficit.frames (color_blacken t) deficit.colored (height_blacken red height) hole

theorem Deficit.root (deficit : Deficit [] t) : RedBlack t.blacken := by
  cases here : t.color with
  | red => exact deficit.red here
  | black =>
    obtain ⟨n,-,height,-⟩ := deficit.heights
    exact ⟨color_blacken t,deficit.colored,n,by rw [blacken_of_black here]; exact height⟩

/-- A black node with at most one child is taken out. -/
theorem Deficit.splice (valid : RedBlack (plug fs (branch s .black t x nil))) : Deficit fs t := by
  obtain ⟨black,colored,total,height⟩ := valid
  obtain ⟨frames,here,-,n,size,hole⟩ := frames_of_plug black colored height
  obtain ⟨m,rfl,near,-⟩ := (height_black ..).mp size
  exact ⟨frames,colored_blacken ((colored_branch ..).mp here).2.1,m,total,near,hole⟩

/-- A red node with at most one child has none, and is taken out. -/
theorem splice_red (valid : RedBlack (plug fs (branch s .red t x nil))) :
    t = nil ∧ FrameColors fs ∧ ∃ total, HoleHeight fs 0 total := by
  obtain ⟨black,colored,total,height⟩ := valid
  obtain ⟨frames,here,-,n,size,hole⟩ := frames_of_plug black colored height
  obtain ⟨near,missing⟩ := (height_red ..).mp size
  subst missing
  refine ⟨?_,frames,total,hole⟩
  have nearBlack := (((colored_branch ..).mp here).1 rfl).1
  cases t with
  | nil => rfl
  | node c l y r =>
    subst nearBlack
    obtain ⟨m,impossible,-⟩ := near
    omega

theorem FrameColors.relabel
    (colors : FrameColors (gs ++ ⟨s,c,x,sibling⟩ :: fs)) (y : Cell) : FrameColors (gs ++ ⟨s,c,y,sibling⟩ :: fs) := by
  induction gs with
  | nil => exact colors
  | cons g gs ih =>
    obtain ⟨colored,rest,red⟩ := colors
    refine ⟨colored,ih rest,fun isRed => ⟨(red isRed).1,?_⟩⟩
    obtain ⟨-,h,hs,same,black⟩ := red isRed
    cases gs with
    | nil | cons g' gs =>
      cases same
      exact ⟨_,_,rfl,black⟩

theorem HoleHeight.relabel (hole : HoleHeight (gs ++ ⟨s,c,x,sibling⟩ :: fs) n total) (y : Cell) :
    HoleHeight (gs ++ ⟨s,c,y,sibling⟩ :: fs) n total := by
  induction gs generalizing n with
  | nil => exact hole
  | cons g gs ih => exact ⟨hole.1,ih hole.2⟩

theorem Deficit.relabel
    (deficit : Deficit (gs ++ ⟨s,c,x,sibling⟩ :: fs) t) (y : Cell) : Deficit (gs ++ ⟨s,c,y,sibling⟩ :: fs) t := by
  obtain ⟨n,total,height,hole⟩ := deficit.heights
  exact ⟨deficit.frames.relabel y,deficit.colored,n,total,height,hole.relabel y⟩

theorem splice_redBlack (valid : RedBlack (plug fs (branch s c t x nil))) :
    (c = .red → RedBlack (plug fs t)) ∧ (c = .black → Deficit fs t) := by
  constructor
  · rintro rfl
    obtain ⟨rfl,colors,total,hole⟩ := splice_red valid
    exact plug_redBlack colors rfl trivial rfl hole
  · rintro rfl
    exact Deficit.splice valid

theorem splice_relabel {side : Side} {d : Color}
    (valid : RedBlack (plug (gs ++ ⟨side,d,x,sibling⟩ :: fs) (branch s c t y nil))) (z : Cell) :
    (c = .red → RedBlack (plug (gs ++ ⟨side,d,z,sibling⟩ :: fs) t)) ∧
      (c = .black → Deficit (gs ++ ⟨side,d,z,sibling⟩ :: fs) t) := by
  constructor
  · rintro rfl
    obtain ⟨rfl,colors,total,hole⟩ := splice_red valid
    exact plug_redBlack (colors.relabel z) rfl trivial rfl (hole.relabel z)
  · rintro rfl
    exact (Deficit.splice valid).relabel z

theorem Deficit.sibling_ne_nil (deficit : Deficit (f :: fs) t) : f.sibling ≠ nil := by
  obtain ⟨n,total,-,sibling,-⟩ := deficit.heights
  exact ne_nil_of_height sibling

/-- A red sibling has a black parent; the parent turns down, and the new sibling is black. -/
theorem Deficit.redSibling (deficit : Deficit (⟨s,c,x,branch s .red near y far⟩ :: fs) t) :
    c = .black ∧ near.color = .black ∧ Deficit (⟨s,.red,x,near⟩ :: ⟨s,.black,y,far⟩ :: fs) t := by
  obtain ⟨n,total,height,sibHeight,hole⟩ := deficit.heights
  obtain ⟨sibColored,rest,red⟩ := deficit.frames
  obtain ⟨childColors,nearColored,farColored⟩ := (colored_branch ..).mp sibColored
  obtain ⟨nearHeight,farHeight⟩ := (height_red ..).mp sibHeight
  obtain ⟨nearBlack,-⟩ := childColors rfl
  have black : c = .black := by
    cases c with
    | black => rfl
    | red => simp at red
  subst black
  refine ⟨rfl,nearBlack,⟨nearColored,⟨farColored,rest,nofun⟩,fun _ => ⟨nearBlack,_,_,rfl,rfl⟩⟩,
    deficit.colored,n,total,height,nearHeight,farHeight,hole⟩

/-- A black sibling with black children turns red, and the parent is short instead. -/
theorem Deficit.up (deficit : Deficit (⟨s,c,x,branch s .black near y far⟩ :: fs) t) (black : t.color = .black)
    (nearBlack : near.color = .black) (farBlack : far.color = .black) :
    Deficit fs (branch s c t x (branch s .red near y far)) := by
  obtain ⟨n,total,height,sibHeight,hole⟩ := deficit.heights
  obtain ⟨sibColored,rest,-⟩ := deficit.frames
  obtain ⟨-,nearColored,farColored⟩ := (colored_branch ..).mp sibColored
  obtain ⟨m,same,nearHeight,farHeight⟩ := (height_black ..).mp sibHeight
  cases Nat.succ.inj same
  have colored := deficit.colored
  rw [blacken_of_black black] at colored
  refine ⟨rest,?_,n + c.weight,total,height_branch height ((height_red ..).mpr ⟨nearHeight,farHeight⟩),?_⟩
  · rw [blacken_branch]
    refine (colored_branch ..).mpr ⟨nofun,colored,(colored_branch ..).mpr ⟨?_,nearColored,farColored⟩⟩
    exact fun _ => ⟨nearBlack,farBlack⟩
  · rw [show n + c.weight + 1 = n + 1 + c.weight by omega]
    exact hole

/-- A black sibling whose only red child is the near one turns down below it. -/
theorem Deficit.nearRed {z : Cell} {inner outer : ColorTree Cell}
    (deficit : Deficit (⟨s,c,x,branch s .black (branch s .red inner z outer) y far⟩ :: fs) t)
    (farBlack : far.color = .black) :
    Deficit (⟨s,c,x,branch s .black inner z (branch s .red outer y far)⟩ :: fs) t := by
  obtain ⟨n,total,height,sibHeight,hole⟩ := deficit.heights
  obtain ⟨sibColored,rest,red⟩ := deficit.frames
  obtain ⟨-,nearColored,farColored⟩ := (colored_branch ..).mp sibColored
  obtain ⟨childColors,innerColored,outerColored⟩ := (colored_branch ..).mp nearColored
  obtain ⟨-,outerBlack⟩ := childColors rfl
  obtain ⟨m,same,nearHeight,farHeight⟩ := (height_black ..).mp sibHeight
  cases Nat.succ.inj same
  obtain ⟨innerHeight,outerHeight⟩ := (height_red ..).mp nearHeight
  refine ⟨⟨?_,rest,fun isRed => ⟨color_branch ..,(red isRed).2⟩⟩,deficit.colored,n,total,height,?_,hole⟩
  · refine (colored_branch ..).mpr ⟨nofun,innerColored,(colored_branch ..).mpr ⟨?_,outerColored,farColored⟩⟩
    exact fun _ => ⟨outerBlack,farBlack⟩
  · exact height_branch innerHeight ((height_red ..).mpr ⟨outerHeight,farHeight⟩)

/-- A black sibling with a red far child takes the place of the parent. -/
theorem Deficit.farRed (deficit : Deficit (⟨s,c,x,branch s .black near y far⟩ :: fs) t) (black : t.color = .black)
    (farRed : far.color = .red) :
    RedBlack (plug fs (branch s c (branch s .black t x near) y far.blacken)) := by
  obtain ⟨n,total,height,sibHeight,hole⟩ := deficit.heights
  obtain ⟨sibColored,rest,red⟩ := deficit.frames
  obtain ⟨-,nearColored,farColored⟩ := (colored_branch ..).mp sibColored
  obtain ⟨m,same,nearHeight,farHeight⟩ := (height_black ..).mp sibHeight
  cases Nat.succ.inj same
  have colored := deficit.colored
  rw [blacken_of_black black] at colored
  have whole : (branch s c (branch s .black t x near) y far.blacken).Height (n + 1 + c.weight) :=
    height_branch (height_branch height nearHeight) (height_blacken farRed farHeight)
  have wholeColored : (branch s c (branch s .black t x near) y far.blacken).Colored := by
    refine (colored_branch ..).mpr ⟨fun _ => ⟨color_branch ..,color_blacken _⟩,?_,colored_blacken farColored⟩
    exact (colored_branch ..).mpr ⟨nofun,colored,nearColored⟩
  refine ⟨?_,plug_colored rest wholeColored ?_,total,plug_height whole hole⟩
  · cases fs with
    | cons g gs => exact plug_root_black rest
    | nil =>
      rw [plug,color_branch]
      cases c with
      | black => rfl
      | red =>
        obtain ⟨-,g,gs,impossible,-⟩ := red rfl
        cases impossible
  · intro isRed g gs same
    rw [color_branch] at isRed
    obtain ⟨-,g',gs',same',isBlack⟩ := red isRed
    rw [same] at same'
    cases same'
    exact isBlack

end
end
end Kenux.Trees
