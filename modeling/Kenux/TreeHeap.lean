import Mathlib.Logic.Function.Basic
import Kenux.Trees

/-!
Trees in a heap of nodes with parent links. `Rep` says that the heap holds a tree
below a parent, `RepFrames` that it holds the frames above a focus, and `Focus`
puts the two together with the root pointer. Each update of the heap that a tree
algorithm makes has one lemma that says what happens to the focus: repainting it
(`Focus.setColor`), turning it down (`Focus.rotate`), and replacing it (`Focus.replace`).
-/
namespace Kenux.TreeHeap
open Kenux.Trees Kenux.Trees.ColorTree
open Function (update update_self update_of_ne)

structure Node (Cell : Type*) where
  parent : Cell
  left : Cell
  right : Cell
  color : Color
  deriving DecidableEq, Repr

section
variable {Cell : Type*}

namespace Node

def child (s : Side) (n : Node Cell) : Cell :=
  match s with
  | .left => n.left
  | .right => n.right

def setChild (s : Side) (v : Cell) (n : Node Cell) : Node Cell :=
  match s with
  | .left => { n with left := v }
  | .right => { n with right := v }

def setParent (v : Cell) (n : Node Cell) : Node Cell := { n with parent := v }

def setColor (c : Color) (n : Node Cell) : Node Cell := { n with color := c }

/-- The node with its child on side `s` and its other child. -/
def make (s : Side) (parent near far : Cell) (c : Color) : Node Cell :=
  match s with
  | .left => ⟨parent,near,far,c⟩
  | .right => ⟨parent,far,near,c⟩

variable (s : Side) (parent near far v : Cell) (c d : Color)

@[simp] theorem make_parent : (make s parent near far c).parent = parent := by cases s <;> rfl
@[simp] theorem make_color : (make s parent near far c).color = c := by cases s <;> rfl
@[simp] theorem make_flip : make s.flip parent near far c = make s parent far near c := by cases s <;> rfl
@[simp] theorem child_make : (make s parent near far c).child s = near := by cases s <;> rfl
@[simp] theorem child_flip_make : (make s parent near far c).child s.flip = far := by cases s <;> rfl
@[simp] theorem setChild_make : (make s parent near far c).setChild s v = make s parent v far c := by cases s <;> rfl
@[simp] theorem setChild_flip_make : (make s parent near far c).setChild s.flip v = make s parent near v c := by
  cases s <;> rfl
@[simp] theorem setParent_make : (make s parent near far c).setParent v = make s v near far c := by cases s <;> rfl
@[simp] theorem setColor_make : (make s parent near far c).setColor d = make s parent near far d := by cases s <;> rfl

end Node

def ptr (nil : Cell) : ColorTree Cell → Cell
  | .nil => nil
  | .node _ _ x _ => x

def top (nil : Cell) : List (Frame Cell) → Cell
  | [] => nil
  | f :: _ => f.cell

/-- The heap holds the tree below the parent. -/
def Rep (nil : Cell) (h : Cell → Node Cell) : Cell → ColorTree Cell → Prop
  | _, .nil => True
  | parent, .node c l x r => x ≠ nil ∧ h x = ⟨parent,ptr nil l,ptr nil r,c⟩ ∧ Rep nil h x l ∧ Rep nil h x r

/-- The heap holds the frames, with the pointer at the focus. -/
def RepFrames (nil : Cell) (h : Cell → Node Cell) : List (Frame Cell) → Cell → Prop
  | [], _ => True
  | f :: fs, hole => f.cell ≠ nil ∧ h f.cell = Node.make f.side (top nil fs) hole (ptr nil f.sibling) f.color ∧
      Rep nil h f.cell f.sibling ∧ RepFrames nil h fs f.cell

/-- The heap and the root pointer hold the tree around the focus; no cell occurs twice. -/
structure Focus (nil : Cell) (h : Cell → Node Cell) (root : Cell) (fs : List (Frame Cell)) (t : ColorTree Cell) : Prop where
  tree : Rep nil h (top nil fs) t
  frames : RepFrames nil h fs (ptr nil t)
  rootIs : root = ptr nil (plug fs t)
  distinct : (plug fs t).toList.Nodup

variable {nil root root' parent x y : Cell} {h h' : Cell → Node Cell} {fs : List (Frame Cell)}
  {t t' near far a b e : ColorTree Cell} {s : Side} {c d : Color}

@[simp] theorem top_nil : top nil [] = nil := rfl

variable {f : Frame Cell} {hole i node new : Cell}

@[simp] theorem top_cons : top nil (f :: fs) = f.cell := rfl

@[simp] theorem ptr_branch : ptr nil (branch s c near x far) = x := by cases s <;> rfl

@[simp] theorem ptr_blacken : ptr nil t.blacken = ptr nil t := by cases t <;> rfl

theorem rep_branch : Rep nil h parent (branch s c near x far) ↔
    x ≠ nil ∧ h x = Node.make s parent (ptr nil near) (ptr nil far) c ∧ Rep nil h x near ∧ Rep nil h x far := by
  cases s with
  | left => rfl
  | right => exact and_congr_right (fun _ => and_congr_right (fun _ => and_comm))

theorem ptr_mem (some : ptr nil t ≠ nil) : ptr nil t ∈ t.toList := by
  cases t with
  | nil => exact absurd rfl some
  | node c l x r => simp [ptr,toList]

section
variable (rep : Rep nil h parent t)
include rep

theorem rep_ne_nil : ∀ i ∈ t.toList, i ≠ nil := by
  induction t generalizing parent with
  | nil => simp [toList]
  | node c l x r left right =>
    obtain ⟨some,-,repLeft,repRight⟩ := rep
    intro i member
    simp only [toList,List.mem_append,List.mem_cons] at member
    rcases member with early | rfl | late
    · exact left repLeft i early
    · exact some
    · exact right repRight i late

theorem rep_ptr_eq_nil : ptr nil t = nil ↔ t = .nil := by
  cases t with
  | nil => simp [ptr]
  | node c l x r => simpa [ptr] using rep.1

/-- A pointer that is not nil and leads to a red node leads to a red tree. -/
theorem rep_red :
    (ptr nil t ≠ nil ∧ (h (ptr nil t)).color = .red) ↔ t.color = .red := by
  cases t with
  | nil => simp [ptr,ColorTree.color]
  | node c l x r =>
    obtain ⟨some,record,-⟩ := rep
    simp [ptr,ColorTree.color,some,record]

theorem rep_congr (same : ∀ i ∈ t.toList, h' i = h i) : Rep nil h' parent t := by
  induction t generalizing parent with
  | nil => trivial
  | node c l x r left right =>
    obtain ⟨some,record,repLeft,repRight⟩ := rep
    refine ⟨some,(same x (by simp [toList])).trans record,left repLeft ?_,right repRight ?_⟩
    · intro i member
      exact same i (by simp [toList,member])
    · intro i member
      exact same i (by simp [toList,member])

theorem rep_reparent (distinct : t.toList.Nodup)
    (moved : ptr nil t ≠ nil → h' (ptr nil t) = (h (ptr nil t)).setParent y)
    (same : ∀ i ∈ t.toList, i ≠ ptr nil t → h' i = h i) : Rep nil h' y t := by
  cases t with
  | nil => trivial
  | node c l x r =>
    obtain ⟨some,record,repLeft,repRight⟩ := rep
    have absent : x ∉ l.toList ∧ x ∉ r.toList := by
      have apart := (List.nodup_middle.mp distinct).notMem
      simpa using apart
    refine ⟨some,?_,rep_congr repLeft ?_,rep_congr repRight ?_⟩
    · have here := moved some
      simp only [ptr,record] at here
      exact here
    · intro i member
      exact same i (by simp [toList,member]) (by rintro rfl; exact absent.1 member)
    · intro i member
      exact same i (by simp [toList,member]) (by rintro rfl; exact absent.2 member)

end

theorem repFrames_congr (rep : RepFrames nil h fs hole) (same : ∀ i ∈ frameCells fs, h' i = h i) :
    RepFrames nil h' fs hole := by
  induction fs generalizing hole with
  | nil => trivial
  | cons f fs ih =>
    obtain ⟨some,record,sibling,rest⟩ := rep
    refine ⟨some,(same _ (by simp [frameCells])).trans record,rep_congr sibling ?_,ih rest ?_⟩
    · intro i member
      exact same i (by simp [frameCells,member])
    · intro i member
      exact same i (by simp [frameCells,member])

theorem top_mem : top nil (f :: fs) ∈ frameCells (f :: fs) := by simp [top,frameCells]

theorem ptr_plug_mem : ptr nil (plug (f :: fs) t) ∈ frameCells (f :: fs) := by
  induction fs generalizing f t with
  | nil => simp [plug,Frame.fill,frameCells]
  | cons g fs ih =>
    have outer : ptr nil (plug (g :: fs) (f.fill t)) ∈ frameCells (g :: fs) := ih
    exact List.mem_cons_of_mem _ (List.mem_append_right _ outer)

theorem repFrames_ne_nil (rep : RepFrames nil h fs hole) : ∀ i ∈ frameCells fs, i ≠ nil := by
  induction fs generalizing hole with
  | nil => simp [frameCells]
  | cons f fs ih =>
    obtain ⟨some,-,sibling,rest⟩ := rep
    intro i member
    simp only [frameCells,List.mem_cons,List.mem_append] at member
    rcases member with rfl | early | late
    · exact some
    · exact rep_ne_nil sibling i early
    · exact ih rest i late

section
variable (focus : Focus nil h root fs t)
include focus

theorem Focus.cells : (t.toList ++ frameCells fs).Nodup :=
  (toList_plug_perm fs t).nodup_iff.mp focus.distinct

theorem Focus.tree_distinct : t.toList.Nodup :=
  (List.nodup_append.mp focus.cells).1

theorem Focus.notMem_frames (member : i ∈ t.toList) : i ∉ frameCells fs :=
  fun inFrames => (List.nodup_append.mp focus.cells).2.2 i member i inFrames rfl

theorem Focus.mem_ne_nil : ∀ i ∈ (plug fs t).toList, i ≠ nil := by
  intro i member
  rcases List.mem_append.mp ((toList_plug_perm fs t).mem_iff.mp member) with below | above
  · exact rep_ne_nil focus.tree i below
  · exact repFrames_ne_nil focus.frames i above

end

theorem Focus.record (focus : Focus nil h root fs (branch s c near x far)) :
    x ≠ nil ∧ h x = Node.make s (top nil fs) (ptr nil near) (ptr nil far) c :=
  ⟨(rep_branch.mp focus.tree).1,(rep_branch.mp focus.tree).2.1⟩

theorem Focus.frameRecord (focus : Focus nil h root (f :: fs) t) :
    f.cell ≠ nil ∧ h f.cell = Node.make f.side (top nil fs) (ptr nil t) (ptr nil f.sibling) f.color :=
  ⟨focus.frames.1,focus.frames.2.1⟩

theorem focus_up : Focus nil h root (f :: fs) t ↔ Focus nil h root fs (f.fill t) := by
  constructor
  · intro focus
    obtain ⟨some,record,sibling,rest⟩ := focus.frames
    exact ⟨rep_branch.mpr ⟨some,record,focus.tree,sibling⟩,by simpa [Frame.fill] using rest,focus.rootIs,focus.distinct⟩
  · intro focus
    obtain ⟨some,record,tree,sibling⟩ := rep_branch.mp focus.tree
    exact ⟨tree,⟨some,record,sibling,by simpa [Frame.fill] using focus.frames⟩,focus.rootIs,focus.distinct⟩

theorem focus_plug : Focus nil h root [] (plug fs t) ↔ Focus nil h root fs t := by
  induction fs generalizing t with
  | nil => rfl
  | cons f fs ih => rw [plug,ih,focus_up]

theorem focus_append {gs : List (Frame Cell)} : Focus nil h root (gs ++ fs) t ↔ Focus nil h root fs (plug gs t) := by
  rw [← focus_plug,plug_append,focus_plug]

theorem focus_near : Focus nil h root fs (branch s c near x far) ↔ Focus nil h root (⟨s,c,x,far⟩ :: fs) near := by
  rw [focus_up,Frame.fill]

theorem focus_far : Focus nil h root fs (branch s c near x far) ↔ Focus nil h root (⟨s.flip,c,x,near⟩ :: fs) far := by
  rw [focus_up,Frame.fill,branch_flip]

section
variable (focus : Focus nil h root fs t)
include focus

theorem Focus.congr (same : ∀ i ∈ (plug fs t).toList, h' i = h i) :
    Focus nil h' root fs t := by
  have inside : ∀ i ∈ t.toList ++ frameCells fs, h' i = h i :=
    fun i member => same i ((toList_plug_perm fs t).mem_iff.mpr member)
  constructor
  · exact rep_congr focus.tree (fun i member => inside i (List.mem_append_left _ member))
  · exact repFrames_congr focus.frames (fun i member => inside i (List.mem_append_right _ member))
  · exact focus.rootIs
  · exact focus.distinct

/-- Replacing the focus: the innermost frame points to the new root, and no other
    frame changes. -/
theorem Focus.replace (tree : Rep nil h' (top nil fs) t')
    (distinct : (plug fs t').toList.Nodup)
    (linked : ∀ f gs, fs = f :: gs → h' f.cell = (h f.cell).setChild f.side (ptr nil t'))
    (others : ∀ i ∈ frameCells fs, i ≠ top nil fs → h' i = h i)
    (newRoot : root' = if fs = [] then ptr nil t' else root) : Focus nil h' root' fs t' := by
  have keepsRoot : ∀ (gs : List (Frame Cell)) (f : Frame Cell) (u v : ColorTree Cell),
      ptr nil (plug (f :: gs) u) = ptr nil (plug (f :: gs) v) := by
    intro gs
    induction gs with
    | nil => intro f u v; simp [plug,Frame.fill]
    | cons g gs ih => intro f u v; exact ih g _ _
  cases fs with
  | nil => exact ⟨tree,trivial,newRoot,distinct⟩
  | cons f gs =>
    obtain ⟨some,record,sibling,rest⟩ := focus.frames
    have apart := (List.nodup_append.mp focus.cells).2.1
    have absent : f.cell ∉ f.sibling.toList ∧ f.cell ∉ frameCells gs := by
      simpa using (List.nodup_cons.mp apart).1
    refine ⟨tree,⟨some,?_,rep_congr sibling ?_,repFrames_congr rest ?_⟩,?_,distinct⟩
    · rw [linked f gs rfl,record,Node.setChild_make]
    · intro i member
      exact others i (by simp [frameCells,member]) (by rintro rfl; exact absent.1 member)
    · intro i member
      exact others i (by simp [frameCells,member]) (by rintro rfl; exact absent.2 member)
    · rw [newRoot,focus.rootIs]
      exact keepsRoot gs f _ _

/-- Replacing the focus by a tree with the same root cell and the same cells. -/
theorem Focus.rewrite (tree : Rep nil h' (top nil fs) t') (same : ptr nil t' = ptr nil t)
    (cells : t'.toList = t.toList) (others : ∀ i ∈ frameCells fs, h' i = h i) : Focus nil h' root fs t' := by
  have distinct : (plug fs t').toList.Nodup := by
    rw [toList_plug,cells,← toList_plug]
    exact focus.distinct
  refine focus.replace tree distinct ?_ (fun i member _ => others i member) ?_
  · rintro f gs rfl
    rw [others f.cell (by simp [frameCells]),same,focus.frameRecord.2,Node.setChild_make]
  · split
    case isTrue empty => rw [same,focus.rootIs,empty,plug]
    · rfl

theorem Focus.ne_top (member : i ∈ t.toList) (some : i ≠ nil) : i ≠ top nil fs := by
  rintro rfl
  cases fs with
  | nil => exact some rfl
  | cons f gs => exact focus.notMem_frames member top_mem

end

/-- A cell outside the tree becomes a leaf at the end of a branch. -/
theorem Focus.attach (focus : Focus nil h root fs .nil) (some : x ≠ nil) (fresh : x ∉ (plug fs .nil).toList)
    (atX : h' x = ⟨top nil fs,nil,nil,c⟩)
    (linked : ∀ f gs, fs = f :: gs → h' f.cell = (h f.cell).setChild f.side x)
    (others : ∀ i ∈ frameCells fs, i ≠ top nil fs → h' i = h i) (newRoot : root' = if fs = [] then x else root) :
    Focus nil h' root' fs (branch .left c .nil x .nil) := by
  have outside : x ∉ frameCells fs := by
    have member := (toList_plug_perm fs .nil).mem_iff.not.mp fresh
    simpa [toList] using member
  have distinct : (plug fs (branch .left c .nil x .nil)).toList.Nodup := by
    rw [(toList_plug_perm ..).nodup_iff]
    exact List.nodup_cons.mpr ⟨outside,focus.cells⟩
  exact focus.replace ⟨some,atX,trivial,trivial⟩ distinct linked others newRoot

theorem Focus.setColor [DecidableEq Cell] (focus : Focus nil h root fs (branch s c near x far)) (d : Color) :
    Focus nil (update h x ((h x).setColor d)) root fs (branch s d near x far) := by
  obtain ⟨some,record,repNear,repFar⟩ := rep_branch.mp focus.tree
  have apart := (toList_branch_perm s c near x far).nodup_iff.mp focus.tree_distinct
  have absent : x ∉ near.toList ∧ x ∉ far.toList := by
    simpa using (List.nodup_cons.mp apart).1
  have here : x ∈ (branch s c near x far).toList := (toList_branch_perm s c near x far).mem_iff.mpr (by simp)
  refine focus.rewrite (rep_branch.mpr ⟨some,?_,rep_congr repNear ?_,rep_congr repFar ?_⟩) (by simp)
    (toList_recolor s d c x rfl rfl) ?_
  · rw [update_self,record,Node.setColor_make]
  · intro i member
    exact update_of_ne (by rintro rfl; exact absent.1 member) _ _
  · intro i member
    exact update_of_ne (by rintro rfl; exact absent.2 member) _ _
  · intro i member
    exact update_of_ne (by rintro rfl; exact focus.notMem_frames here member) _ _

theorem turn_perm : (branch s c a x (branch s d b y e)).toList.Perm (x :: (a.toList ++ y :: (b.toList ++ e.toList))) :=
  (toList_branch_perm ..).trans (List.Perm.cons x ((toList_branch_perm s d b y e).append_left a.toList))

section
variable (focus : Focus nil h root fs (branch s c a x (branch s d b y e)))
include focus

theorem Focus.turn_apart :
    x ≠ y ∧ (ptr nil b ≠ nil → ptr nil b ≠ x ∧ ptr nil b ≠ y) ∧
      (top nil fs ≠ nil → top nil fs ≠ x ∧ top nil fs ≠ y ∧ top nil fs ≠ ptr nil b) := by
  have apart := turn_perm.nodup_iff.mp focus.tree_distinct
  simp only [List.nodup_cons,List.nodup_append,List.mem_append,List.mem_cons,not_or] at apart
  obtain ⟨⟨-,xY,xB,-⟩,-,⟨⟨yB,-⟩,-⟩,-⟩ := apart
  refine ⟨xY,fun some => ⟨?_,?_⟩,fun some => ⟨?_,?_,?_⟩⟩
  · intro same
    exact xB (same ▸ ptr_mem some)
  · intro same
    exact yB (same ▸ ptr_mem some)
  · intro same
    exact focus.ne_top (turn_perm.mem_iff.mpr (by simp)) (same ▸ some) same.symm
  · intro same
    exact focus.ne_top (turn_perm.mem_iff.mpr (by simp)) (same ▸ some) same.symm
  · intro same
    have moved : ptr nil b ∈ b.toList := ptr_mem (same ▸ some)
    exact focus.ne_top (turn_perm.mem_iff.mpr (by simp [moved])) (same ▸ some) same.symm

/-- Turning the root of the focus down to side `s`: its other child takes its place. -/
theorem Focus.rotate
    (atX : h' x = Node.make s y (ptr nil a) (ptr nil b) c) (atY : h' y = Node.make s (top nil fs) x (ptr nil e) d)
    (atB : ptr nil b ≠ nil → h' (ptr nil b) = (h (ptr nil b)).setParent x)
    (linked : ∀ f gs, fs = f :: gs → h' f.cell = (h f.cell).setChild f.side y)
    (others : ∀ i, i ≠ nil → i ≠ x → i ≠ y → i ≠ ptr nil b → i ≠ top nil fs → h' i = h i)
    (newRoot : root' = if fs = [] then y else root) :
    Focus nil h' root' fs (branch s d (branch s c a x b) y e) := by
  obtain ⟨someX,-,repA,repY⟩ := rep_branch.mp focus.tree
  obtain ⟨someY,-,repB,repE⟩ := rep_branch.mp repY
  have apart := turn_perm.nodup_iff.mp focus.tree_distinct
  have inTree : ∀ i, i ∈ x :: (a.toList ++ y :: (b.toList ++ e.toList)) → i ∉ frameCells fs :=
    fun i member => focus.notMem_frames (turn_perm.mem_iff.mpr member)
  have topOut : ∀ i, i ∈ x :: (a.toList ++ y :: (b.toList ++ e.toList)) → i ≠ nil → i ≠ top nil fs :=
    fun i member => focus.ne_top (turn_perm.mem_iff.mpr member)
  simp only [List.nodup_cons,List.nodup_append,List.mem_append,List.mem_cons,not_or] at apart
  obtain ⟨⟨xA,xY,xB,xE⟩,-,⟨⟨yB,yE⟩,bDistinct,-,bE⟩,aRest⟩ := apart
  have keep : ∀ t : ColorTree Cell, (∀ i ∈ t.toList, i ∈ x :: (a.toList ++ y :: (b.toList ++ e.toList)) ∧ i ≠ nil ∧ i ≠ x ∧
      i ≠ y ∧ i ≠ ptr nil b) → ∀ i ∈ t.toList, h' i = h i := by
    intro t facts i member
    obtain ⟨inside,some,notX,notY,notB⟩ := facts i member
    exact others i some notX notY notB (topOut i inside some)
  have distinct : (plug fs (branch s d (branch s c a x b) y e)).toList.Nodup := by
    rw [toList_plug,toList_rotate,← toList_plug]
    exact focus.distinct
  refine focus.replace ?_ distinct ?_ ?_ (by simpa using newRoot)
  · refine rep_branch.mpr ⟨someY,by simpa using atY,rep_branch.mpr ⟨someX,atX,?_,?_⟩,?_⟩
    · refine rep_congr repA (keep a (fun i member => ⟨by simp [member],rep_ne_nil repA i member,?_,?_,?_⟩))
      · rintro rfl; exact xA member
      · rintro rfl; exact aRest _ member _ (.inl rfl) rfl
      · rintro rfl
        exact aRest _ member _ (.inr (.inl (ptr_mem (rep_ne_nil repA _ member)))) rfl
    · refine rep_reparent repB bDistinct atB ?_
      intro i member notRoot
      refine others i (rep_ne_nil repB i member) ?_ ?_ notRoot (topOut i (by simp [member]) (rep_ne_nil repB i member))
      · rintro rfl; exact xB member
      · rintro rfl; exact yB member
    · refine rep_congr repE (keep e (fun i member => ⟨by simp [member],rep_ne_nil repE i member,?_,?_,?_⟩))
      · rintro rfl; exact xE member
      · rintro rfl; exact yE member
      · rintro rfl
        exact bE _ (ptr_mem (rep_ne_nil repE _ member)) _ member rfl
  · intro f gs same
    simpa using linked f gs same
  · intro i member notTop
    refine others i (repFrames_ne_nil focus.frames i member) ?_ ?_ ?_ notTop
    · rintro rfl; exact inTree _ (by simp) member
    · rintro rfl; exact inTree _ (by simp) member
    · rintro rfl
      exact inTree _ (by simp [ptr_mem (repFrames_ne_nil focus.frames _ member)]) member

end

/-- A cell outside the tree takes the place of the root of the focus. -/
theorem Focus.relabel (focus : Focus nil h root fs (branch s c near x far)) (some : y ≠ nil)
    (fresh : y ∉ (plug fs (branch s c near x far)).toList)
    (atY : h' y = Node.make s (top nil fs) (ptr nil near) (ptr nil far) c)
    (atNear : ptr nil near ≠ nil → h' (ptr nil near) = (h (ptr nil near)).setParent y)
    (atFar : ptr nil far ≠ nil → h' (ptr nil far) = (h (ptr nil far)).setParent y)
    (linked : ∀ f gs, fs = f :: gs → h' f.cell = (h f.cell).setChild f.side y)
    (others : ∀ i, i ≠ nil → i ≠ x → i ≠ y → i ≠ ptr nil near → i ≠ ptr nil far → i ≠ top nil fs → h' i = h i)
    (newRoot : root' = if fs = [] then y else root) : Focus nil h' root' fs (branch s c near y far) := by
  obtain ⟨-,-,repNear,repFar⟩ := rep_branch.mp focus.tree
  have perm := toList_branch_perm s c near x far
  have apart := perm.nodup_iff.mp focus.tree_distinct
  simp only [List.nodup_cons,List.nodup_append,List.mem_append,not_or] at apart
  obtain ⟨⟨xNear,xFar⟩,nearDistinct,farDistinct,across⟩ := apart
  have absent : y ∉ (near.toList ++ far.toList) ++ frameCells fs := by
    intro member
    refine fresh ((toList_plug_perm ..).mem_iff.mpr ?_)
    rcases List.mem_append.mp member with below | above
    · exact List.mem_append_left _ (perm.mem_iff.mpr (List.mem_cons_of_mem x below))
    · exact List.mem_append_right _ above
  have distinct : (plug fs (branch s c near y far)).toList.Nodup := by
    have old := (perm.append_right (frameCells fs)).nodup_iff.mp focus.cells
    rw [(toList_plug_perm ..).nodup_iff,((toList_branch_perm s c near y far).append_right _).nodup_iff]
    exact List.nodup_cons.mpr ⟨absent,(List.nodup_cons.mp old).2⟩
  simp only [List.mem_append,not_or] at absent
  obtain ⟨⟨yNear,yFar⟩,yFrames⟩ := absent
  refine focus.replace ?_ distinct ?_ ?_ (by simpa using newRoot)
  · refine rep_branch.mpr ⟨some,atY,rep_reparent repNear nearDistinct atNear ?_,rep_reparent repFar farDistinct atFar ?_⟩
    · intro i member notRoot
      have someI := rep_ne_nil repNear i member
      refine others i someI ?_ ?_ notRoot ?_ (focus.ne_top (perm.mem_iff.mpr (by simp [member])) someI)
      · rintro rfl; exact xNear member
      · rintro rfl; exact yNear member
      · rintro rfl; exact across _ member _ (ptr_mem someI) rfl
    · intro i member notRoot
      have someI := rep_ne_nil repFar i member
      refine others i someI ?_ ?_ ?_ notRoot (focus.ne_top (perm.mem_iff.mpr (by simp [member])) someI)
      · rintro rfl; exact xFar member
      · rintro rfl; exact yFar member
      · rintro rfl; exact across _ (ptr_mem someI) _ member rfl
  · intro f gs same
    simpa using linked f gs same
  · intro i member notTop
    have someI := repFrames_ne_nil focus.frames i member
    have outside : i ∉ x :: (near.toList ++ far.toList) := fun inside => focus.notMem_frames (perm.mem_iff.mpr inside) member
    refine others i someI ?_ ?_ ?_ ?_ notTop
    · rintro rfl; exact outside (by simp)
    · rintro rfl; exact yFrames member
    · rintro rfl; exact outside (by simp [ptr_mem someI])
    · rintro rfl; exact outside (by simp [ptr_mem someI])

section
variable [DecidableEq Cell] {child : Cell}

/-- A loop that goes down to the left ends at a node without a left child. -/
theorem leftmost_spec {loop : Nat → Cell → Option Cell} : ∀ (fuel : Nat) (t : ColorTree Cell) (parent : Cell), Rep nil h parent t →
    (∀ fuel, ∀ x ∈ t.toList, loop (fuel+1) x = if (h x).left ≠ nil then loop fuel (h x).left else some x) → t ≠ .nil →
    t.toList.length ≤ fuel →
    ∃ gs d y r, loop fuel (ptr nil t) = some y ∧ t = plug gs (branch .right d r y .nil) ∧ before gs = []
  | _, .nil, _, _, _, present, _ => absurd rfl present
  | 0, .node c l x r, _, _, _, _, enough => by simp [toList] at enough
  | fuel+1, .node c l x r, _, rep, rounds, _, enough => by
    obtain ⟨-,record,below,-⟩ := rep
    simp only [toList,List.length_append,List.length_cons] at enough
    have missing := rep_ptr_eq_nil below
    rw [ptr,rounds fuel x (by simp [toList]),record]
    by_cases last : l = .nil
    · subst last
      exact ⟨[],c,x,r,if_neg (by simp [ptr]),rfl,rfl⟩
    · obtain ⟨gs,d,y,r',run,same,chain⟩ := leftmost_spec fuel l x below (fun fuel i member => rounds fuel i (by simp [toList,member]))
        last (by omega)
      refine ⟨gs ++ [⟨.left,c,x,r⟩],d,y,r',?_,by rw [plug_append,← same]; rfl,by simp [before_append,before,chain]⟩
      rw [if_pos (missing.not.mpr last),run]

def adopted (nil : Cell) (h : Cell → Node Cell) (child parent : Cell) : Cell → Node Cell :=
  if child ≠ nil then update h child ((h child).setParent parent) else h

/-- The heap in which the innermost frame, if there is one, points to another node. -/
def relinked (h : Cell → Node Cell) (new : Cell) : List (Frame Cell) → Cell → Node Cell
  | [] => h
  | f :: _ => update h f.cell ((h f.cell).setChild f.side new)

/-- The innermost frame holds a pointer to the node on its own side only. -/
def Held (nil : Cell) (h : Cell → Node Cell) (node : Cell) : List (Frame Cell) → Prop
  | [] => True
  | f :: _ => f.cell ≠ nil ∧ (h f.cell).child f.side = node ∧ (h f.cell).child f.side.flip ≠ node

omit [DecidableEq Cell] in
theorem held_of_focus (focus : Focus nil h root fs t) (some : ptr nil t ≠ nil) : Held nil h (ptr nil t) fs := by
  cases fs with
  | nil => trivial
  | cons f gs =>
    obtain ⟨someF,atF⟩ := focus.frameRecord
    refine ⟨someF,by rw [atF,Node.child_make],?_⟩
    rw [atF,Node.child_flip_make]
    intro same
    have inSibling := ptr_mem (same ▸ some : ptr nil f.sibling ≠ nil)
    rw [same] at inSibling
    exact focus.notMem_frames (ptr_mem some) (by simp [frameCells,inSibling])

omit [DecidableEq Cell] in
theorem Held.congr (held : Held nil h node fs) (same : top nil fs ≠ nil → h' (top nil fs) = h (top nil fs)) :
    Held nil h' node fs := by
  cases fs with
  | nil => trivial
  | cons f gs =>
    obtain ⟨someF,near,far⟩ := held
    have kept : h' f.cell = h f.cell := same someF
    exact ⟨someF,by rw [kept]; exact near,by rw [kept]; exact far⟩

/-- The comparison with the left child of the parent finds the side of the node. -/
theorem Held.side {α : Type*} (held : Held nil h node (f :: fs)) (F : Side → α) :
    (if node = (h f.cell).left then F .left else F .right) = F f.side := by
  obtain ⟨-,near,far⟩ := held
  cases side : f.side with
  | left =>
    rw [side] at near
    exact if_pos near.symm
  | right =>
    rw [side] at far
    exact if_neg (Ne.symm far)

theorem adopted_of_ne (other : child ≠ nil → child ≠ i) : adopted nil h child parent i = h i := by
  by_cases missing : child = nil
  · simp [adopted,missing]
  · simp [adopted,missing,(other missing).symm]

theorem adopted_self (some : child ≠ nil) :
    adopted nil h child parent child = (h child).setParent parent := by simp [adopted,some]

theorem relinked_of_ne (other : fs ≠ [] → top nil fs ≠ i) : relinked h new fs i = h i := by
  cases fs with
  | nil => rfl
  | cons f gs => exact update_of_ne (other nofun).symm _ _

/-- A record that is not the innermost frame may be written before or after relinking. -/
theorem relinked_update {n : Node Cell} (other : fs ≠ [] → top nil fs ≠ i) :
    relinked (update h i n) new fs = update (relinked h new fs) i n := by
  cases fs with
  | nil => rfl
  | cons f gs =>
    have apart : f.cell ≠ i := other nofun
    rw [relinked,relinked,update_of_ne apart,Function.update_comm apart]

omit [DecidableEq Cell] in
theorem Focus.top_ne_nil (focus : Focus nil h root fs t) (inside : fs ≠ []) : top nil fs ≠ nil := by
  cases fs with
  | nil => exact absurd rfl inside
  | cons f gs => exact focus.frames.1

omit [DecidableEq Cell] in
theorem Focus.relabel_apart {l r : ColorTree Cell} (focus : Focus nil h root fs (.node c l x r))
    (fresh : y ∉ (plug fs (.node c l x r)).toList) :
    x ≠ y ∧ (ptr nil l ≠ nil → ptr nil l ≠ x ∧ ptr nil l ≠ y) ∧ (ptr nil r ≠ nil → ptr nil r ≠ x ∧ ptr nil r ≠ y ∧ ptr nil r ≠ ptr nil l) ∧
      (fs ≠ [] → top nil fs ≠ x ∧ top nil fs ≠ y ∧ top nil fs ≠ ptr nil l ∧ top nil fs ≠ ptr nil r) := by
  have apart := focus.tree_distinct
  simp only [toList,List.nodup_append,List.nodup_cons,List.mem_cons] at apart
  obtain ⟨-,⟨xR,-⟩,across⟩ := apart
  have absent := (toList_plug_perm ..).mem_iff.not.mp fresh
  simp only [toList,List.mem_append,List.mem_cons,not_or] at absent
  obtain ⟨⟨yL,yX,yR⟩,yFrames⟩ := absent
  refine ⟨Ne.symm yX,fun some => ⟨?_,?_⟩,fun some => ⟨?_,?_,?_⟩,fun inside => ⟨?_,?_,?_,?_⟩⟩
  · intro same
    exact across _ (ptr_mem some) x (.inl rfl) same
  · intro same
    exact yL (same ▸ ptr_mem some)
  · intro same
    exact xR (same ▸ ptr_mem some)
  · intro same
    exact yR (same ▸ ptr_mem some)
  · intro same
    exact across _ (ptr_mem (same ▸ some)) _ (.inr (ptr_mem some)) same.symm
  · intro same
    exact focus.ne_top (by simp [toList]) focus.tree.1 same.symm
  · intro same
    cases fs with
    | nil => exact inside rfl
    | cons f gs => exact yFrames (same ▸ top_mem)
  · intro same
    have some := focus.top_ne_nil inside
    have member : ptr nil l ∈ l.toList := ptr_mem (same ▸ some)
    exact focus.ne_top (by simp [toList,member]) (same ▸ some) same.symm
  · intro same
    have some := focus.top_ne_nil inside
    have member : ptr nil r ∈ r.toList := ptr_mem (same ▸ some)
    exact focus.ne_top (by simp [toList,member]) (same ▸ some) same.symm

/-- The heap of a rotation before the frame above is relinked. -/
def turned (nil : Cell) (h : Cell → Node Cell) (s : Side) (c d : Color) (x y parent near inner outer : Cell) :
    Cell → Node Cell :=
  update (adopted nil (update h x (Node.make s parent near inner c)) inner x) y
    (Node.make s parent x outer d)

section
variable {inner outer nearCell i : Cell}

theorem turned_x (xy : x ≠ y) (apart : inner ≠ nil → inner ≠ x ∧ inner ≠ y) :
    turned nil h s c d x y parent nearCell inner outer x = Node.make s parent nearCell inner c := by
  rw [turned,update_of_ne xy,adopted_of_ne (fun some => (apart some).1),update_self]

theorem turned_inner (some : inner ≠ nil) (apart : inner ≠ nil → inner ≠ x ∧ inner ≠ y) :
    turned nil h s c d x y parent nearCell inner outer inner = (h inner).setParent x := by
  rw [turned,update_of_ne (apart some).2,adopted_self some,update_of_ne (apart some).1]

theorem turned_of_ne (notX : i ≠ x) (notY : i ≠ y) (notInner : i ≠ inner) :
    turned nil h s c d x y parent nearCell inner outer i = h i := by
  rw [turned,update_of_ne notY,adopted_of_ne (fun _ => notInner.symm),update_of_ne notX]

end

def rotated (nil : Cell) (h : Cell → Node Cell) (s : Side) (c d : Color) (x y near inner outer : Cell)
    (fs : List (Frame Cell)) : Cell → Node Cell :=
  update (relinked (turned nil h s c d x y (top nil fs) near inner outer) y fs) x (Node.make s y near inner c)

theorem rotated_nil {inner outer nearCell : Cell} (someX : x ≠ nil) (someY : y ≠ nil)
    (inside : fs ≠ [] → top nil fs ≠ nil) : rotated nil h s c d x y nearCell inner outer fs nil = h nil := by
  rw [rotated,update_of_ne someX.symm,relinked_of_ne inside,turned,update_of_ne someY.symm,
    adopted_of_ne (fun some => some),update_of_ne someX.symm]

theorem Focus.rotated (focus : Focus nil h root fs (branch s c a x (branch s d b y e))) :
    Focus nil (rotated nil h s c d x y (ptr nil a) (ptr nil b) (ptr nil e) fs) (if fs = [] then y else root) fs
      (branch s d (branch s c a x b) y e) := by
  obtain ⟨xy,bApart,topApart⟩ := focus.turn_apart
  have above : ∀ h new i, (fs ≠ [] → top nil fs ≠ i) → relinked h new fs i = h i := fun h new i => relinked_of_ne
  unfold TreeHeap.rotated
  apply Focus.rotate focus
  · simp
  · rw [update_of_ne xy.symm,above _ _ _ (fun inside => (topApart (focus.top_ne_nil inside)).2.1),turned,
      update_self]
  · intro some
    rw [update_of_ne (bApart some).1,above _ _ _ (fun inside => (topApart (focus.top_ne_nil inside)).2.2),
      turned_inner some bApart]
  · rintro f gs rfl
    obtain ⟨notX,notY,notB⟩ := topApart (focus.top_ne_nil nofun)
    simp only [top] at notX notY notB
    rw [update_of_ne notX,relinked,update_self,turned_of_ne notX notY notB]
  · intro i _ notX notY notB notTop
    rw [update_of_ne notX,above _ _ _ (fun _ => notTop.symm),turned_of_ne notX notY notB]
  · rfl

omit [DecidableEq Cell] in
theorem Focus.splice_apart (focus : Focus nil h root fs (branch s c t x .nil)) :
    x ∉ t.toList ∧ x ≠ top nil fs ∧ ∀ i ∈ t.toList, i ≠ top nil fs ∧ i ∉ frameCells fs := by
  have perm : (branch s c t x .nil).toList.Perm (x :: t.toList) := by
    simpa [toList] using toList_branch_perm s c t x .nil
  obtain ⟨absent,-⟩ := List.nodup_cons.mp (perm.nodup_iff.mp focus.tree_distinct)
  refine ⟨absent,focus.ne_top (perm.mem_iff.mpr (by simp)) focus.record.1,?_⟩
  intro i member
  have inside := perm.mem_iff.mpr (List.mem_cons_of_mem x member)
  exact ⟨focus.ne_top inside (rep_ne_nil focus.tree i inside),focus.notMem_frames inside⟩

omit [DecidableEq Cell] in
theorem Focus.splice_cells (focus : Focus nil h root fs (branch s c t x .nil)) :
    x ∉ t.toList ++ frameCells fs ∧ (t.toList ++ frameCells fs).Nodup := by
  have cells := ((toList_branch_perm s c t x .nil).append_right _).nodup_iff.mp focus.cells
  simpa only [toList,List.append_nil,List.cons_append,List.nodup_cons] using cells

omit [DecidableEq Cell] in
theorem Focus.splice_fresh (focus : Focus nil h root fs (branch s c t x .nil)) : x ∉ (plug fs t).toList :=
  (toList_plug_perm ..).mem_iff.not.mpr focus.splice_cells.1

theorem Focus.splice (focus : Focus nil h root fs (branch s c t x .nil)) :
    Focus nil (relinked (adopted nil h (ptr nil t) (top nil fs)) (ptr nil t) fs) (if fs = [] then ptr nil t else root)
      fs t := by
  obtain ⟨-,-,rep,-⟩ := rep_branch.mp focus.tree
  obtain ⟨-,-,apart⟩ := focus.splice_apart
  have distinct := focus.splice_cells.2
  have above : ∀ h new i, i ≠ top nil fs → relinked h new fs i = h i :=
    fun h new i other => relinked_of_ne (fun _ => other.symm)
  refine focus.replace (rep_reparent rep (List.nodup_append.mp distinct).1 ?_ ?_)
    ((toList_plug_perm fs t).nodup_iff.mpr distinct) ?_ ?_ rfl
  · intro some
    simp only [above _ _ _ (apart _ (ptr_mem some)).1,adopted_self some]
  · intro i member notRoot
    simp only [above _ _ _ (apart i member).1,adopted_of_ne (fun _ => notRoot.symm)]
  · rintro f gs rfl
    have kept : ptr nil t ≠ nil → ptr nil t ≠ f.cell := fun some => (apart _ (ptr_mem some)).1
    simp [relinked,adopted_of_ne kept]
  · intro i member other
    have kept : ptr nil t ≠ nil → ptr nil t ≠ i := by
      rintro some rfl
      exact (apart _ (ptr_mem some)).2 member
    simp only [above _ _ _ other,adopted_of_ne kept]

end
end
end Kenux.TreeHeap
