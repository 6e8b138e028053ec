import Kenux.KapiRbtree

/-!
Erasure from the red-black tree of the kernel API, and runs of insertions and
erasures. Taking out a node leaves a focus that may be one black node short
(`Deficit`); each round of the loop repairs it or moves it up, and a sibling
exists in every round because the heights of the two sides differ by the missing
node.
-/
namespace Kenux.KapiRbtree
open Kenux.Trees Kenux.TreeHeap
open Kenux.Trees.ColorTree hiding node nil
open Function (update update_self update_of_ne)

variable {t : Rbtree} {fs : List (Frame Nat)} {u a b e near far : ColorTree Nat} {s : Side} {c d : Color}
  {x y : Nat} {f : Frame Nat}

/-! ### The loop that repairs the heights -/

theorem isBlack_ptr {parent : Nat} (rep : Rep 0 t.heap parent u) : isBlack t (ptr 0 u) = true ↔ u.color = .black := by
  have black : ∀ c : Color, c = .black ↔ ¬ c = .red := by
    intro c
    cases c <;> simp
  rw [black,← rep_red rep,not_and_or,not_not,← black,isBlack,Bool.or_eq_true,decide_eq_true_eq,decide_eq_true_eq]

theorem redSibling_spec (focus : At t (⟨s,c,x,branch s .red near y far⟩ :: fs) u) :
    ∃ t', redSibling s x t = some (ptr 0 near,t') ∧ At t' (⟨s,.red,x,near⟩ :: ⟨s,.black,y,far⟩ :: fs) u := by
  have whole := focus_near.mpr focus
  obtain ⟨someX,atX⟩ := whole.record
  have away := focus_far.mp whole
  obtain ⟨someY,atY⟩ := away.record
  obtain ⟨t₁,run₁,focus₁⟩ := setColor_spec away .black
  obtain ⟨t₂,run₂,focus₂⟩ := setColor_spec (focus_far.mpr focus₁) .red
  obtain ⟨t₃,run₃,focus₃⟩ := rotate_spec focus₂
  have down := focus_near.mp focus₃
  obtain ⟨-,atX₃⟩ := down.record
  refine ⟨t₃,?_,focus_near.mp down⟩
  simp [redSibling,load_of_ne,someX,someY,atX,atY,run₁,run₂,run₃,atX₃]

theorem nearSibling_spec {z : Nat} {inner outer : ColorTree Nat}
    (focus : At t (⟨s,c,x,branch s .black (branch s .red inner z outer) y far⟩ :: fs) u) (farBlack : far.color = .black) :
    ∃ t', nearSibling s x y t = some (z,t') ∧ At t' (⟨s,c,x,branch s .black inner z (branch s .red outer y far)⟩ :: fs) u := by
  have away := focus_far.mp (focus_near.mpr focus)
  obtain ⟨someY,atY⟩ := away.record
  have black := (isBlack_ptr (focus_far.mp away).tree).mpr farBlack
  obtain ⟨t₁,run₁,focus₁⟩ := setColor_spec (focus_near.mp away) .black
  obtain ⟨t₂,run₂,focus₂⟩ := setColor_spec (focus_near.mpr focus₁) .red
  rw [← branch_flip s,← branch_flip s .black] at focus₂
  obtain ⟨t₃,run₃,focus₃⟩ := rotate_spec focus₂
  simp only [branch_flip] at focus₃
  have whole := focus_far.mpr focus₃
  obtain ⟨someX,atX⟩ := whole.record
  refine ⟨t₃,?_,focus_near.mp whole⟩
  simp [nearSibling,load_of_ne,someX,someY,atX,atY,black,run₁,run₂,run₃]

theorem farSibling_spec (focus : At t (⟨s,c,x,branch s .black near y far⟩ :: fs) u) (farRed : far.color = .red) :
    ∃ t', farSibling s x y t = some t' ∧ At t' fs (branch s c (branch s .black u x near) y far.blacken) := by
  have whole := focus_near.mpr focus
  obtain ⟨someX,atX⟩ := whole.record
  have away := focus_far.mp whole
  obtain ⟨someY,atY⟩ := away.record
  obtain ⟨t₁,run₁,focus₁⟩ := setColor_spec away c
  obtain ⟨t₂,run₂,focus₂⟩ := setColor_spec (focus_far.mpr focus₁) .black
  have away₂ := focus_far.mp focus₂
  obtain ⟨-,atY₂⟩ := away₂.record
  have below := focus_far.mp away₂
  have someFar : ptr 0 far ≠ 0 := (rep_ptr_eq_nil below.tree).not.mpr (ne_nil_of_red farRed)
  obtain ⟨t₃,run₃,focus₃⟩ := setColor_blacken below (ne_nil_of_red farRed)
  obtain ⟨t₄,run₄,focus₄⟩ := rotate_spec (focus_far.mpr (focus_far.mpr focus₃))
  refine ⟨t₄,?_,focus₄⟩
  simp [farSibling,load_of_ne,someX,someY,atX,run₁,run₂,atY₂,someFar,run₃,run₄]

theorem farSibling_done (focus : At t (⟨s,c,x,branch s .black near y far⟩ :: fs) u)
    (deficit : Deficit (⟨s,c,x,branch s .black near y far⟩ :: fs) u) (black : u.color = .black) (farRed : far.color = .red) :
    ∃ t' v, farSibling s x y t = some t' ∧ At t' [] v ∧ RedBlack v ∧ v ≠ .nil ∧
      v.toList = (plug (⟨s,c,x,branch s .black near y far⟩ :: fs) u).toList := by
  obtain ⟨t',run,focus'⟩ := farSibling_spec focus farRed
  refine ⟨t',_,run,focus_plug.mpr focus',deficit.farRed black farRed,plug_ne_nil _ (.inr ?_),?_⟩
  · cases s <;> simp [branch]
  · simp only [plug,toList_plug,Frame.fill]
    rw [toList_rotate,toList_recolor s .black c x rfl
      (toList_recolor s c .black y rfl (toList_blacken far))]

/-- What a round leaves: a shorter or red deficit, or a finished tree. -/
def Repaired (fs : List (Frame Nat)) (u : ColorTree Nat) : Round → Prop
  | .again child parent t => ∃ gs v, child = ptr 0 v ∧ parent = top 0 gs ∧ At t gs v ∧ Deficit gs v ∧
      (gs.length < fs.length ∨ v.color = .red) ∧ (plug gs v).toList = (plug fs u).toList
  | .stop t => ∃ v, At t [] v ∧ RedBlack v ∧ v ≠ .nil ∧ v.toList = (plug fs u).toList

theorem eraseFixup_exit (focus : At t fs u) (valid : RedBlack (plug fs u.blacken)) :
    ∃ t' v, (if ptr 0 u ≠ 0 then t.setColor (ptr 0 u) .black else some t) = some t' ∧ At t' [] v ∧ RedBlack v ∧
      v.toList = (plug fs u).toList := by
  have cells : (plug fs u.blacken).toList = (plug fs u).toList := by
    rw [toList_plug,toList_plug,toList_blacken]
  have missing := rep_ptr_eq_nil focus.tree
  by_cases empty : u = .nil
  · subst empty
    exact ⟨t,_,if_neg (by simp [ptr]),focus_plug.mpr focus,valid,rfl⟩
  · obtain ⟨t',run,focus'⟩ := setColor_blacken focus empty
    refine ⟨t',_,?_,focus_plug.mpr focus',valid,cells⟩
    rw [if_pos (missing.not.mpr empty)]
    exact run

section
variable (focus : At t (f :: fs) u)
include focus

theorem redSibling_black (deficit : Deficit (f :: fs) u) :
    ∃ t' c near y far gs, redSibling f.side f.cell t = some (y,t') ∧
      At t' (⟨f.side,c,f.cell,branch f.side .black near y far⟩ :: gs) u ∧
      Deficit (⟨f.side,c,f.cell,branch f.side .black near y far⟩ :: gs) u ∧
      (gs.length ≤ fs.length ∨ c = .red) ∧
      (plug (⟨f.side,c,f.cell,branch f.side .black near y far⟩ :: gs) u).toList = (plug (f :: fs) u).toList := by
  obtain ⟨s,c,x,sibling⟩ := f
  obtain ⟨d,near,y,far,rfl⟩ := branch_of_ne_nil s deficit.sibling_ne_nil
  cases d with
  | black =>
    have whole := focus_near.mpr focus
    obtain ⟨someX,atX⟩ := whole.record
    obtain ⟨someY,atY⟩ := (focus_far.mp whole).record
    refine ⟨t,c,near,y,far,fs,?_,focus,deficit,.inl (Nat.le_refl _),rfl⟩
    simp [redSibling,load_of_ne,someX,someY,atX,atY]
  | red =>
    obtain ⟨-,nearBlack,next⟩ := deficit.redSibling
    obtain ⟨t',run,focus'⟩ := redSibling_spec focus
    obtain ⟨d,near',y',far',rfl⟩ := branch_of_ne_nil s next.sibling_ne_nil
    rw [color_branch] at nearBlack
    subst nearBlack
    refine ⟨t',.red,near',y',far',_,?_,focus',next,.inr rfl,?_⟩
    · simpa using run
    · simp only [plug,toList_plug,Frame.fill]
      rw [toList_rotate]
      rw [toList_recolor s .red c x rfl (toList_recolor s .black .red y rfl rfl)]

theorem eraseRound_spec (deficit : Deficit (f :: fs) u) (black : u.color = .black) :
    ∃ round, eraseRound f.side f.cell t = some round ∧ Repaired (f :: fs) u round := by
  obtain ⟨t₁,c,near,y,far,gs,run₁,focus₁,deficit₁,shorter,order₁⟩ := redSibling_black focus deficit
  have away := focus_far.mp (focus_near.mpr focus₁)
  obtain ⟨someY,atY⟩ := away.record
  have nearIs := isBlack_ptr (focus_near.mp away).tree
  have farIs := isBlack_ptr (focus_far.mp away).tree
  cases farColor : far.color with
  | red =>
    obtain ⟨t₂,v,run₂,focus₂,valid,some,order₂⟩ := farSibling_done focus₁ deficit₁ black farColor
    refine ⟨.stop t₂,?_,v,focus₂,valid,some,order₂.trans order₁⟩
    rw [farColor] at farIs
    simp [eraseRound,nearSibling,run₁,load_of_ne,someY,atY,farIs,run₂]
  | black =>
    cases nearColor : near.color with
    | red =>
      obtain ⟨d,inner,z,outer,rfl⟩ := branch_of_ne_nil f.side (ne_nil_of_red nearColor)
      rw [color_branch] at nearColor
      subst nearColor
      obtain ⟨t₂,run₂,focus₂⟩ := nearSibling_spec focus₁ farColor
      obtain ⟨t₃,v,run₃,focus₃,valid,some,order₃⟩ := farSibling_done focus₂ (deficit₁.nearRed farColor) black (by simp)
      refine ⟨.stop t₃,?_,v,focus₃,valid,some,order₃.trans (Eq.trans ?_ order₁)⟩
      · simp at nearIs
        simp [eraseRound,run₁,load_of_ne,someY,atY,nearIs,run₂,run₃]
      · simp only [plug,toList_plug,Frame.fill]
        generalize f.side = s
        cases s <;> simp [branch,toList]
    | black =>
      obtain ⟨t₂,run₂,focus₂⟩ := setColor_spec away .red
      have whole := focus_far.mpr focus₂
      obtain ⟨someX,atX⟩ := whole.record
      refine ⟨.again f.cell (top 0 gs) t₂,?_,gs,_,?_,rfl,whole,deficit₁.up black nearColor farColor,?_,?_⟩
      · rw [nearColor] at nearIs
        rw [farColor] at farIs
        simp [eraseRound,run₁,load_of_ne,someX,someY,atX,atY,nearIs,farIs,run₂]
      · simp
      · rw [color_branch]
        exact shorter.imp Nat.lt_succ_of_le id
      · rw [← order₁]
        simp only [plug,toList_plug,Frame.fill]
        rw [toList_recolor f.side c c f.cell rfl (toList_recolor f.side .red .black y rfl rfl)]

private theorem ptr_ne_root : ptr 0 u ≠ t.root := by
  intro same
  have inFrames : ptr 0 u ∈ frameCells (f :: fs) := by
    rw [same,focus.rootIs]
    exact ptr_plug_mem
  exact focus.notMem_frames (ptr_mem (repFrames_ne_nil focus.frames _ inFrames)) inFrames

/-- The sibling tells the two sides apart also when the child is missing. -/
theorem held_of_sibling (some : f.sibling ≠ .nil) : Held 0 t.heap (ptr 0 u) (f :: fs) := by
  have someSibling := (rep_ptr_eq_nil focus.frames.2.2.1).not.mpr some
  by_cases missing : ptr 0 u = 0
  · obtain ⟨someF,atF⟩ := focus.frameRecord
    refine ⟨someF,by rw [atF,Node.child_make],?_⟩
    rw [atF,Node.child_flip_make,missing]
    exact someSibling
  · exact held_of_focus focus missing

end

variable {fuel : Nat} {l r : ColorTree Nat} {cmp : Nat → Nat → Int}

theorem eraseFixup_step {round : Round} (focus : At t (f :: fs) u) (black : u.color = .black)
    (some : f.sibling ≠ .nil) (run : eraseRound f.side f.cell t = .some round) :
    eraseFixup (fuel+1) (ptr 0 u) f.cell t = round.resume (eraseFixup fuel) := by
  have isBlack := (isBlack_ptr focus.tree).mpr black
  have chosen := (held_of_sibling focus some).side
    (fun s => (eraseRound s f.cell t).bind fun round => round.resume (eraseFixup fuel))
  simp only [run] at chosen
  simpa [eraseFixup,isBlack,ptr_ne_root focus,load_of_ne focus.frames.1] using chosen

theorem eraseFixup_spec : ∀ (fuel : Nat) (fs : List (Frame Nat)) (u : ColorTree Nat) (t : Rbtree), At t fs u →
    Deficit fs u → fs.length < fuel ∨ (u.color = .red ∧ 0 < fuel) → ∃ child t₁ t₂ v,
      eraseFixup fuel (ptr 0 u) (top 0 fs) t = some (child,t₁) ∧
      (if child ≠ 0 then t₁.setColor child .black else some t₁) = some t₂ ∧ At t₂ [] v ∧ RedBlack v ∧
      v.toList = (plug fs u).toList
  | 0, _, _, _, _, _, enough => absurd enough (by omega)
  | fuel+1, [], u, t, focus, deficit, _ => by
    obtain ⟨t₂,v,run,rest⟩ := eraseFixup_exit focus deficit.root
    have root : t.root = ptr 0 u := focus.rootIs
    exact ⟨ptr 0 u,t,t₂,v,by simp [eraseFixup,root],run,rest⟩
  | fuel+1, f :: fs, u, t, focus, deficit, enough => by
    have isBlack := isBlack_ptr focus.tree
    cases color : u.color with
    | red =>
      obtain ⟨t₂,v,run,rest⟩ := eraseFixup_exit focus (deficit.red color)
      rw [color] at isBlack
      exact ⟨ptr 0 u,t,t₂,v,by simp [eraseFixup,isBlack],run,rest⟩
    | black =>
      obtain ⟨round,run,repaired⟩ := eraseRound_spec focus deficit color
      rw [top_cons,eraseFixup_step focus color deficit.sibling_ne_nil run]
      cases round with
      | again child parent t₁ =>
        obtain ⟨gs,v₁,rfl,rfl,focus₁,deficit₁,shorter,order₁⟩ := repaired
        have short : fs.length < fuel := by simpa [color] using enough
        have enough₁ : gs.length < fuel ∨ (v₁.color = .red ∧ 0 < fuel) := by
          rw [List.length_cons] at shorter
          rcases shorter with less | red
          · left; omega
          · right; exact ⟨red,by omega⟩
        obtain ⟨child,t₂,t₃,v,run₂,run₃,focus₃,valid,order⟩ := eraseFixup_spec fuel gs v₁ t₁ focus₁ deficit₁ enough₁
        exact ⟨child,t₂,t₃,v,run₂,run₃,focus₃,valid,order.trans order₁⟩
      | stop t₁ =>
        obtain ⟨v₁,focus₁,valid₁,some,order₁⟩ := repaired
        have root : t₁.root = ptr 0 v₁ := focus₁.rootIs
        obtain ⟨t₂,v,run₂,focus₂,valid,order⟩ := eraseFixup_exit focus₁ (by
          rw [blacken_of_black valid₁.1]
          exact valid₁)
        exact ⟨ptr 0 v₁,t₁,t₂,v,by rw [Round.resume,root],run₂,focus₂,valid,order.trans order₁⟩

/-! ### Taking a node out -/

theorem takePlace_spec (focus : At t fs (.node c l x r)) (someL : l ≠ .nil) (someY : y ≠ 0)
    (fresh : y ∉ (plug fs (.node c l x r)).toList) :
    ∃ t', takePlace x y t = some t' ∧ At t' fs (.node c l y r) := by
  obtain ⟨someX,atX,repL,repR⟩ := focus.tree
  have left := (rep_ptr_eq_nil repL).not.mpr someL
  obtain ⟨xy,lApart,rApart,topApart⟩ := focus.relabel_apart fresh
  obtain ⟨lx,ly⟩ := lApart left
  have held : Held 0 t.heap x fs := held_of_focus focus someX
  have heldStored : Held 0 (update t.heap y ⟨top 0 fs,ptr 0 l,ptr 0 r,c⟩) x fs := by
    apply held.congr
    intro some
    have inside : fs ≠ [] := by rintro rfl; exact some rfl
    exact update_of_ne (topApart inside).2.1 _ _
  have linked : relink .left (top 0 fs) x y { t with heap := update t.heap y ⟨top 0 fs,ptr 0 l,ptr 0 r,c⟩ } = _ :=
    relink_eq .left y heldStored
  have above : ∀ h new i, (fs ≠ [] → top 0 fs ≠ i) → relinked h new fs i = h i := fun h new i => relinked_of_ne
  have atX₂ : relinked (update t.heap y ⟨top 0 fs,ptr 0 l,ptr 0 r,c⟩) y fs x = ⟨top 0 fs,ptr 0 l,ptr 0 r,c⟩ := by
    rw [above _ _ _ (fun inside => (topApart inside).1),update_of_ne xy,atX]
  refine ⟨_,by simp [takePlace,load_of_ne,store_of_ne,someX,someY,atX,xy,linked,atX₂,left,lx.symm,adopt_eq]; rfl,?_⟩
  simp only [At]
  refine Focus.relabel (s := .left) focus someY fresh ?_ ?_ ?_ ?_ ?_ rfl
  · rw [adopted_of_ne (fun some => (rApart some).2.1),update_of_ne ly.symm,
      above _ _ _ (fun inside => (topApart inside).2.1),update_self,Node.make]
  · intro _
    rw [adopted_of_ne (fun some => (rApart some).2.2),update_self,
      above _ _ _ (fun inside => (topApart inside).2.2.1),update_of_ne ly]
  · intro some
    obtain ⟨-,ry,rl⟩ := rApart some
    rw [adopted_self some,update_of_ne rl,above _ _ _ (fun inside => (topApart inside).2.2.2),
      update_of_ne ry]
  · rintro f gs rfl
    obtain ⟨-,fy,fl,fr⟩ := topApart nofun
    rw [top_cons] at fy fl fr
    rw [adopted_of_ne (fun _ => fr.symm),update_of_ne fl,relinked,update_self,update_of_ne fy]
  · intro i _ _ notY notL notR notTop
    rw [adopted_of_ne (fun _ => notR.symm),update_of_ne notL,above _ _ _ (fun _ => notTop.symm),
      update_of_ne notY]

/-- What taking a node out leaves: the place of its child, one black node short if
    a black node is missing there, and the other nodes in their order. -/
structure Removed (node child parent : Nat) (color : Color) (t : Rbtree) (old : ColorTree Nat)
    (fs : List (Frame Nat)) (u : ColorTree Nat) : Prop where
  focus : At t fs u
  childIs : child = ptr 0 u
  parentIs : parent = top 0 fs
  red : color = .red → RedBlack (plug fs u)
  black : color = .black → Deficit fs u
  order : ∃ early late, old.toList = early ++ node :: late ∧ (plug fs u).toList = early ++ late

section
variable (focus : At t fs (branch s c u x .nil))
include focus

theorem unlink_eq :
    unlink x (ptr 0 u) t = some (ptr 0 u,top 0 fs,c,
      { heap := relinked (adopted 0 t.heap (ptr 0 u) (top 0 fs)) (ptr 0 u) fs,
        root := if fs = [] then ptr 0 u else t.root }) := by
  obtain ⟨someX,atX⟩ := focus.record
  obtain ⟨-,-,apart⟩ := focus.splice_apart
  have held := held_of_focus focus (by rw [ptr_branch]; exact someX)
  rw [ptr_branch] at held
  have heldAdopted : Held 0 (adopted 0 t.heap (ptr 0 u) (top 0 fs)) x fs :=
    held.congr (fun _ => adopted_of_ne (fun some => (apart _ (ptr_mem some)).1))
  have linked : relink .left (top 0 fs) x (ptr 0 u) { t with heap := adopted 0 t.heap (ptr 0 u) (top 0 fs) } = _ :=
    relink_eq .left (ptr 0 u) heldAdopted
  simp [unlink,load_of_ne,someX,atX,adopt_eq,linked]

theorem unlink_spec :
    ∃ t', unlink x (ptr 0 u) t = some (ptr 0 u,top 0 fs,c,t') ∧ At t' fs u ∧ t'.heap x = t.heap x := by
  obtain ⟨absent,notTop,-⟩ := focus.splice_apart
  refine ⟨_,unlink_eq focus,focus.splice,?_⟩
  have kept : ptr 0 u ≠ 0 → ptr 0 u ≠ x := by
    rintro some rfl
    exact absent (ptr_mem some)
  simp only [relinked_of_ne (fun _ => notTop.symm),adopted_of_ne kept]

theorem unlink_removed (valid : RedBlack (plug fs (branch s c u x .nil))) :
    ∃ t', unlink x (ptr 0 u) t = some (ptr 0 u,top 0 fs,c,t') ∧
      Removed x (ptr 0 u) (top 0 fs) c t' (plug fs (branch s c u x .nil)) fs u := by
  obtain ⟨t',run,focus',-⟩ := unlink_spec focus
  obtain ⟨red,black⟩ := splice_redBlack valid
  exact ⟨t',run,focus',rfl,rfl,red,black,toList_splice ..⟩

end

theorem leftmost_first {parent fuel : Nat} (rep : Rep 0 t.heap parent u) (present : u ≠ .nil) (enough : u.toList.length ≤ fuel) :
    ∃ gs d y v, leftmost t fuel (ptr 0 u) = some y ∧ u = plug gs (branch .right d v y .nil) ∧ before gs = [] := by
  refine leftmost_spec fuel u parent rep (fun fuel i member => ?_) present enough
  simp [leftmost,load_of_ne (rep_ne_nil rep i member)]

section
variable (focus : At t fs (.node c l x r)) (valid : RedBlack (plug fs (.node c l x r))) (enough : r.toList.length ≤ fuel)
include focus valid enough

theorem takeOut_two (someL : l ≠ .nil) (someR : r ≠ .nil) :
    ∃ child parent color t' gs v, takeOut fuel x t = some (child,parent,color,t') ∧
      Removed x child parent color t' (plug fs (.node c l x r)) gs v := by
  obtain ⟨someX,atX,repL,repR⟩ := focus.tree
  have left := (rep_ptr_eq_nil repL).not.mpr someL
  have right := (rep_ptr_eq_nil repR).not.mpr someR
  have down : At t (⟨.right,c,x,l⟩ :: fs) r := (focus_near (s := .right)).mp focus
  obtain ⟨gs,d,y,u,run,rfl,chain⟩ := leftmost_first repR someR enough
  have below := focus_append.mpr down
  obtain ⟨someY,atY⟩ := below.record
  obtain ⟨t₁,run₁,focus₁,same⟩ := unlink_spec below
  have whole : At t₁ fs (.node c l x (plug gs u)) := (focus_near (s := .right)).mpr (focus_append.mp focus₁)
  have fresh : y ∉ (plug fs (.node c l x (plug gs u))).toList := by
    have absent := below.splice_fresh
    rwa [plug_append] at absent
  obtain ⟨t₂,run₂,focus₂⟩ := takePlace_spec whole someL someY fresh
  have placed := focus_append.mpr ((focus_near (s := .right)).mp focus₂)
  have topIs : (if top 0 (gs ++ ⟨.right,c,x,l⟩ :: fs) = x then y else top 0 (gs ++ ⟨.right,c,x,l⟩ :: fs)) =
      top 0 (gs ++ ⟨.right,c,y,l⟩ :: fs) := by
    cases gs with
    | nil => simp
    | cons g gs =>
      have apart := (List.nodup_append.mp focus₁.cells).2.1
      simp only [List.cons_append,frameCells,frameCells_append,List.nodup_cons,List.mem_append,List.mem_cons,not_or] at apart
      have other : g.cell ≠ x := apart.1.2.2.1
      simp [other]
  have valid' : RedBlack (plug (gs ++ ⟨.right,c,x,l⟩ :: fs) (branch .right d u y .nil)) := by
    rw [plug_append]
    exact valid
  obtain ⟨red,black⟩ := splice_relabel valid' y
  refine ⟨_,_,_,t₂,_,u,?_,placed,rfl,topIs,red,black,?_⟩
  · have childIs : (Node.make .right (top 0 (gs ++ ⟨.right,c,x,l⟩ :: fs)) (ptr 0 u) (ptr 0 .nil) d).right = ptr 0 u := rfl
    simp [takeOut,load_of_ne,someX,someY,atX,left,right,run,atY,childIs,run₁,same,run₂]
  · rw [plug_append]
    exact toList_takePlace chain

theorem takeOut_spec :
    ∃ child parent color t' gs v, takeOut fuel x t = some (child,parent,color,t') ∧
      Removed x child parent color t' (plug fs (.node c l x r)) gs v := by
  obtain ⟨someX,atX,repL,repR⟩ := focus.tree
  by_cases noLeft : l = .nil
  · subst noLeft
    obtain ⟨t',run,removed⟩ := unlink_removed (s := .right) focus valid
    exact ⟨_,_,_,t',_,_,by simpa [takeOut,load_of_ne,someX,atX,ptr] using run,removed⟩
  · have left := (rep_ptr_eq_nil repL).not.mpr noLeft
    by_cases noRight : r = .nil
    · subst noRight
      obtain ⟨t',run,removed⟩ := unlink_removed (s := .left) focus valid
      refine ⟨_,_,_,t',_,_,?_,removed⟩
      have none : ptr 0 (.nil : ColorTree Nat) = 0 := rfl
      simpa [takeOut,load_of_ne,someX,atX,left,none] using run
    · exact takeOut_two focus valid enough noLeft noRight

end

theorem kapiRbErase_spec {node : Nat} (valid : Valid cmp t u) (linked : node ∈ u.toList)
    (enough : u.toList.length < fuel) :
    ∃ t' v, kapiRbErase fuel node t = some t' ∧ Valid cmp t' v ∧ ∀ i, i ∈ v.toList ↔ i ≠ node ∧ i ∈ u.toList := by
  obtain ⟨fs,c,l,r,rfl⟩ := exists_plug_of_mem linked
  have size := length_frames_le fs (.node c l node r)
  simp only [toList,List.length_append,List.length_cons] at size
  obtain ⟨child,parent,color,t₁,gs,v₁,run₁,removed⟩ := takeOut_spec (focus_plug.mp valid.focus) valid.redBlack
    (show r.toList.length ≤ fuel by omega)
  obtain ⟨early,late,old,new⟩ := removed.order
  -- the loop only changes colours and links, so the nodes in order are those of the removal
  obtain ⟨t₂,v,run₂,focus₂,redBlack,cells⟩ : ∃ t₂ v, kapiRbErase fuel node t = some t₂ ∧ At t₂ [] v ∧ RedBlack v ∧
      v.toList = (plug gs v₁).toList := by
    cases color with
    | red => exact ⟨t₁,plug gs v₁,by simp [kapiRbErase,run₁],focus_plug.mpr removed.focus,removed.red rfl,rfl⟩
    | black =>
      have short := length_frames_le gs v₁
      rw [new] at short
      rw [old] at enough
      simp only [List.length_append,List.length_cons] at short enough
      obtain ⟨child',t₂,t₃,v,run₂,run₃,rest⟩ := eraseFixup_spec fuel gs v₁ t₁ removed.focus (removed.black rfl) (.inl (by omega))
      rw [← removed.childIs,← removed.parentIs] at run₂
      exact ⟨t₃,v,by simpa [kapiRbErase,run₁,run₂] using run₃,rest⟩
  have distinct := valid.focus.distinct
  rw [plug,old,List.nodup_middle,List.nodup_cons] at distinct
  refine ⟨t₂,v,run₂,⟨focus₂,redBlack,?_⟩,?_⟩
  · have sorted := valid.sorted
    rw [Sorted,old] at sorted
    rw [Sorted,cells,new]
    exact sorted.sublist (List.Sublist.append_left (List.sublist_cons_self node late) early)
  · intro i
    rw [cells,new,old]
    simp only [List.mem_append,List.mem_cons]
    constructor
    · intro member
      refine ⟨?_,member.imp_right .inr⟩
      rintro rfl
      exact distinct.1 (List.mem_append.mpr member)
    · rintro ⟨other,first | rfl | last⟩
      · exact .inl first
      · exact absurd rfl other
      · exact .inr last

inductive Request where
  | insert (node : Nat)
  | erase (node : Nat)
  deriving DecidableEq, Repr

/-- The tree, and the nodes that were inserted and not erased. -/
structure State where
  tree : Rbtree
  linked : List Nat

def start (memory : Nat → Node Nat) : State := { tree := { heap := memory, root := 0 }, linked := [] }

def step (cmp : Nat → Nat → Int) (fuel : Nat) (s : State) : Request → Option State
  | .insert node => do some { tree := ← kapiRbInsert cmp fuel node s.tree, linked := node :: s.linked }
  | .erase node => do some { tree := ← kapiRbErase fuel node s.tree, linked := s.linked.erase node }

/-- Nodes that are inserted are not linked, nodes that are erased are. -/
def Legal (s : State) : Request → Prop
  | .insert node => node ≠ 0 ∧ node ∉ s.linked
  | .erase node => node ∈ s.linked

instance (s : State) (a : Request) : Decidable (Legal s a) :=
  match a with
  | .insert _ => inferInstanceAs (Decidable (_ ∧ _))
  | .erase node => inferInstanceAs (Decidable (node ∈ s.linked))

/-- The memory holds a red-black search tree, parent pointers included, of exactly
    the linked nodes. -/
def SearchTree (cmp : Nat → Nat → Int) (s : State) : Prop :=
  ∃ u, Focus 0 s.tree.heap s.tree.root [] u ∧ RedBlack u ∧ Sorted cmp u ∧ ∀ i, i ∈ u.toList ↔ i ∈ s.linked

/-- The tree is a search tree of at most `n` nodes, none of them linked twice. -/
def Grown (cmp : Nat → Nat → Int) (n : Nat) (s : State) : Prop :=
  (∃ u, Valid cmp s.tree u ∧ ∀ i, i ∈ u.toList ↔ i ∈ s.linked) ∧ s.linked.Nodup ∧ s.linked.length ≤ n

theorem step_grown (order : TotalPreorder cmp) (n : Nat) (s : State) (a : Request)
    (enough : n < fuel) (grown : Grown cmp n s) (legal : Legal s a) :
    ∃ s', step cmp fuel s a = some s' ∧ Grown cmp (n+1) s' := by
  obtain ⟨⟨u,valid,members⟩,distinct,size⟩ := grown
  have same : u.toList.length = s.linked.length :=
    ((List.perm_ext_iff_of_nodup valid.focus.distinct distinct).mpr members).length_eq
  cases a with
  | insert node =>
    obtain ⟨some,fresh⟩ := legal
    obtain ⟨t,v,run,valid',members'⟩ := kapiRbInsert_spec order valid ((members node).not.mpr fresh) some
      (show _ < fuel by omega)
    refine ⟨_,by simp [step,run]; rfl,⟨v,valid',?_⟩,List.nodup_cons.mpr ⟨fresh,distinct⟩,by simpa using size⟩
    intro i
    rw [members',members,List.mem_cons]
  | erase node =>
    obtain ⟨t,v,run,valid',members'⟩ := kapiRbErase_spec valid ((members node).mpr legal) (show _ < fuel by omega)
    refine ⟨_,by simp [step,run]; rfl,⟨v,valid',?_⟩,distinct.erase node,?_⟩
    · intro i
      rw [members',members,distinct.mem_erase_iff]
    · have shorter := List.length_erase_le (a := node) (l := s.linked)
      exact Nat.le_trans shorter (by omega)

/-- Every run of insertions of unlinked nodes and erasures of linked ones meets no
    `NULL`, ends all its loops and leaves a red-black search tree of the linked nodes. -/
theorem kapi_rb_run_valid (cmp : Nat → Nat → Int) (order : TotalPreorder cmp) (memory : Nat → Node Nat)
    (requests : List Request) (fuel : Nat) (enough : requests.length ≤ fuel)
    (legal : Runs.Guarded (step cmp fuel) Legal (start memory) requests) :
    ∃ s, Runs.run (step cmp fuel) (start memory) requests = some s ∧ SearchTree cmp s := by
  have empty : Grown cmp 0 (start memory) := by
    refine ⟨⟨.nil,⟨⟨trivial,trivial,rfl,by simp [plug,toList]⟩,⟨rfl,trivial,0,rfl⟩,by simp [Sorted,toList]⟩,?_⟩,?_,?_⟩
    · simp [start,toList]
    · simp [start]
    · simp [start]
  obtain ⟨s,run,⟨u,valid,members⟩,-⟩ := Runs.run_counted (step_grown order) requests 0 _ (by omega) empty legal
  exact ⟨s,run,u,valid.focus,valid.redBlack,valid.sorted,members⟩

def byAddress (a b : Nat) : Int := a - b

theorem byAddress_total : TotalPreorder byAddress := by
  constructor
  · intro a b
    simp only [byAddress]
    omega
  · intro a b c
    simp only [byAddress]
    omega

theorem kapi_rb_run_valid_two_children : ∃ s, Runs.run (step byAddress 6) (start fun _ => ⟨0,0,0,.red⟩)
    [.insert 2, .insert 1, .insert 3, .insert 4, .erase 2, .erase 1] = some s ∧ SearchTree byAddress s :=
  kapi_rb_run_valid byAddress byAddress_total _ _ 6 (by decide) (by decide +kernel)

end Kenux.KapiRbtree
