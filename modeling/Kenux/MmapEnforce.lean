import Kenux.MmapShape

/-!
Areas whose pages are mapped writable or executable only as their protections allow
(`Enforced`), and what changes of protection, faults and unmappings do to them.
-/
namespace Kenux.MmapPages
open Kenux.Mmap Kenux.Words Kenux.Slots Kenux.Runs
open Kenux.Pmap hiding pageSize

/-- The page is mapped writable only if the protection has write, and executable only if it has exec. -/
def Allowed (prot entry : Nat) : Prop := entry &&& pagePresent ≠ 0 →
  (entry &&& pageWritable ≠ 0 → prot &&& protWrite ≠ 0) ∧ (entry &&& pageNoExec = 0 → prot &&& protExec ≠ 0)

/-- Flags for the pages of an area with this protection. -/
def FlagsAllowed (prot flags : Nat) : Prop :=
  (flags &&& pageWritable ≠ 0 → prot &&& protWrite ≠ 0) ∧ (flags &&& pageNoExec = 0 → prot &&& protExec ≠ 0)

theorem allowed_zero (prot : Nat) : Allowed prot 0 := fun present => absurd rfl present

variable {prot flags paddr frame : Nat}

theorem FlagsAllowed.entry (allowed : FlagsAllowed prot flags) (clear : paddr &&& pageWritable = 0) :
    Allowed prot (pteFlags paddr (flags ||| pagePresent)) := by
  intro _
  unfold pteFlags
  rw [Nat.and_or_distrib_right,Nat.and_or_distrib_right,clear,Nat.zero_or,Nat.and_or_distrib_right,Nat.and_or_distrib_right,
    show pagePresent &&& pageWritable = 0 by decide,Nat.or_zero]
  refine ⟨allowed.1,fun executable => allowed.2 ?_⟩
  exact (Nat.or_eq_zero_iff.mp (Nat.or_eq_zero_iff.mp executable).2).1

theorem protToPteFlags_allowed (prot : Nat) : FlagsAllowed prot (protToPteFlags prot) := by
  unfold FlagsAllowed protToPteFlags
  dsimp only
  split
  · split
    case isTrue write => exact ⟨fun _ => write,fun clear => absurd clear nofun⟩
    · exact ⟨fun set => absurd set nofun,fun clear => absurd clear nofun⟩
  case isFalse exec =>
    split
    case isTrue write => exact ⟨fun _ => write,fun _ => exec⟩
    · exact ⟨fun set => absurd set nofun,fun _ => exec⟩

private theorem writable_allowed (write : prot &&& protWrite ≠ 0) : FlagsAllowed prot (protToPteFlags prot ||| pageWritable) := by
  refine ⟨fun _ => write,fun executable => (protToPteFlags_allowed prot).2 ?_⟩
  rw [Nat.and_or_distrib_right] at executable
  exact (Nat.or_eq_zero_iff.mp executable).1

theorem cow_allowed (prot : Nat) :
    FlagsAllowed prot ((protToPteFlags prot &&& (2^64 - 1 - pageWritable)) ||| pageCowFlag) := by
  constructor
  · have clear : ((protToPteFlags prot &&& (2^64 - 1 - pageWritable)) ||| pageCowFlag) &&& pageWritable = 0 := by
      rw [Nat.and_or_distrib_right,Nat.and_assoc,show (2^64 - 1 - pageWritable) &&& pageWritable = 0 by decide,
        show pageCowFlag &&& pageWritable = 0 by decide,Nat.and_zero,Nat.or_zero]
    exact fun set => absurd clear set
  · intro executable
    refine (protToPteFlags_allowed prot).2 ?_
    rw [Nat.and_or_distrib_right,Nat.and_assoc] at executable
    exact (Nat.or_eq_zero_iff.mp executable).1

theorem frame_not_writable (aligned : frame % 4 = 0) : frame &&& pageWritable = 0 := by
  have field : frame &&& pageWritable = frame / 2^1 % 2^1 * 2^1 := and_field frame 1 1
  omega

/-- The pages of the areas are mapped as their protections allow. -/
structure Enforced (pml4 : Nat) (s : Space) : Prop extends Shaped pml4 s where
  allowed : ∀ i x, (s.context.areas i).active = true → (s.context.areas i).start ≤ x →
    x < (s.context.areas i).start + (s.context.areas i).length → Allowed (s.context.areas i).prot (entryOf s.words pml4 (pageOf x))

section
variable {pml4 vaddr : Nat} {s t : Space}

/-! ### Changing the protection -/

/-- A range meets an area that lies inside it and is not mapped to frame 0, or the new protection allows what the
    protection of the area does. -/
def Suits (pml4 : Nat) (s : Space) (addr length prot : Nat) : Prop :=
  ∀ i, (s.context.areas i).meets addr length = true →
    (addr ≤ (s.context.areas i).start ∧ (s.context.areas i).start + (s.context.areas i).length ≤ addr + length ∧
      addr + length < 2^64 ∧ ∀ x, (s.context.areas i).start ≤ x → x < (s.context.areas i).start + (s.context.areas i).length →
        pmapTranslate s.words pml4 (pageAlignDown x) ≠ some 0) ∨
    (((s.context.areas i).prot &&& protWrite ≠ 0 → prot &&& protWrite ≠ 0) ∧
      ((s.context.areas i).prot &&& protExec ≠ 0 → prot &&& protExec ≠ 0))

theorem reprotect_allowed {entry : Nat} (unchanged : pteAddr entry = 0 → Allowed prot entry) :
    Allowed prot (reprotect prot entry) := by
  unfold reprotect
  split
  case isTrue skipped =>
    rcases skipped with absent | null
    · exact fun present => absurd absent present
    · exact unchanged null
  · have aligned := pteAddr_mod entry
    unfold Pmap.pageSize at aligned
    exact (protToPteFlags_allowed prot).entry (frame_not_writable (by omega))

theorem Allowed.mono {prot' entry : Nat} (allowed : Allowed prot entry)
    (grows : (prot &&& protWrite ≠ 0 → prot' &&& protWrite ≠ 0) ∧ (prot &&& protExec ≠ 0 → prot' &&& protExec ≠ 0)) :
    Allowed prot' entry :=
  fun present => ⟨fun set => grows.1 ((allowed present).1 set),fun clear => grows.2 ((allowed present).2 clear)⟩

theorem absent_of_null {x : Nat} (map : PageMap s.words pml4) (null : pteAddr (entryOf s.words pml4 (pageOf x)) = 0)
    (frame : pmapTranslate s.words pml4 (pageAlignDown x) ≠ some 0) : entryOf s.words pml4 (pageOf x) &&& pagePresent = 0 := by
  by_contra present
  have start : pageAlignDown x % 4096 = 0 := Nat.mul_mod_left _ _
  rw [map.translate,pageOf_alignDown,if_neg present,null,start] at frame
  exact frame rfl

theorem Enforced.protect {tables : Slot → Nat → List Nat} {addr length : Nat} (enforced : Enforced pml4 s)
    (suits : Suits pml4 s addr length prot) :
    Enforced pml4 ((List.finRange 256).foldl (protectArea pml4 tables addr length prot) s) := by
  obtain ⟨pages,context⟩ := @protectAreas_spec pml4 prot s tables addr length (List.finRange 256) enforced.map
  generalize (List.finRange 256).foldl (protectArea pml4 tables addr length prot) s = t at pages context
  have areas : t.context.areas = protectedArea s.context addr length prot (List.finRange 256) := by rw [context]
  have shape : ∀ i, ∃ prot', t.context.areas i = withProt prot' (s.context.areas i) := by
    intro i
    rw [areas,protectedArea]
    split
    · exact ⟨prot,rfl⟩
    · exact ⟨(s.context.areas i).prot,rfl⟩
  have spans : t.context.spans = s.context.spans := by
    funext i
    obtain ⟨prot',is⟩ := shape i
    rw [Context.spans,is]
    rfl
  refine ⟨⟨pages.map,?_,?_⟩,?_⟩
  · intro i active
    obtain ⟨prot',is⟩ := shape i
    rw [is] at active ⊢
    obtain ⟨start,size,ends,half⟩ := enforced.regular i active
    exact ⟨start,size,ends,half⟩
  · rw [spans]
    exact enforced.separate
  · intro i x active low high
    obtain ⟨prot',is⟩ := shape i
    rw [is] at active low high
    have before := enforced.allowed i x active low high
    rw [pages.entries]
    by_cases met : (s.context.areas i).meets addr length = true
    · rw [show (t.context.areas i).prot = prot by rw [areas,protectedArea,if_pos ⟨List.mem_finRange i,met⟩]; rfl]
      split
      · refine reprotect_allowed (fun null => ?_)
        rcases suits i met with ⟨_,_,_,frames⟩ | grows
        · exact fun present => absurd (absent_of_null enforced.map null (frames x low high)) present
        · exact before.mono grows
      case isFalse member =>
        rcases suits i met with ⟨above,below,fits,_⟩ | grows
        · refine absurd (mem_touched.mpr ⟨i,met,?_⟩) member
          obtain ⟨start,size,ends,_⟩ := enforced.regular i active
          refine (mem_pagesIn start size ends fits).mpr ⟨x,low,high,Nat.div_le_div_right ?_,?_,rfl⟩
          · exact Nat.le_trans above low
          · have inside := Nat.lt_of_lt_of_le high below
            unfold pageSize
            omega
        · exact before.mono grows
    · rw [show (t.context.areas i).prot = (s.context.areas i).prot by rw [areas,protectedArea,if_neg (fun both => met both.2)],if_neg]
      · exact before
      · intro member
        obtain ⟨k,met',inside⟩ := mem_touched.mp member
        have active' : (s.context.areas k).active = true := by
          simp only [Area.meets,Bool.and_eq_true] at met'
          exact met'.1
        obtain ⟨y,low',high',same⟩ := mem_pagesIn_area (enforced.regular k active') inside
        have equal := same_area enforced.regular enforced.separate active low high active' low' high' same
        exact met (equal ▸ met')

/-! ### Faults -/

theorem Enforced.congr (enforced : Enforced pml4 s) (alike : Alike s.context t.context) (map : PageMap t.words pml4)
    (entries : ∀ i x, (s.context.areas i).active = true → (s.context.areas i).start ≤ x →
      x < (s.context.areas i).start + (s.context.areas i).length →
      entryOf t.words pml4 (pageOf x) = entryOf s.words pml4 (pageOf x) ∨
        Allowed (s.context.areas i).prot (entryOf t.words pml4 (pageOf x))) : Enforced pml4 t := by
  refine ⟨enforced.toShaped.alike alike map,fun i x active low high => ?_⟩
  obtain ⟨flags,is⟩ := alike i
  rw [is] at active low high ⊢
  rcases entries i x active low high with same | allowed
  · rw [same]
    exact enforced.allowed i x active low high
  · exact allowed

theorem IsFrame.mod_four (isFrame : IsFrame frame) : frame % 4 = 0 := by
  have aligned := isFrame.1
  unfold pageSize at aligned
  omega

section
variable {i : Slot} {tables : List Nat} (enforced : Enforced pml4 s) (active : (s.context.areas i).active = true)
  (low : (s.context.areas i).start ≤ vaddr) (high : vaddr < (s.context.areas i).start + (s.context.areas i).length)
  (allowed : FlagsAllowed (s.context.areas i).prot flags)
include enforced active low high allowed

theorem Enforced.update (alike : Alike s.context t.context) (map : PageMap t.words pml4) (aligned : paddr % 4 = 0)
    (entries : entryOf t.words pml4 = Function.update (entryOf s.words pml4) (pageOf vaddr) (pteFlags paddr (flags ||| pagePresent))) :
    Enforced pml4 t := by
  refine enforced.congr alike map (fun k x active' low' high' => ?_)
  rw [entries]
  by_cases here : pageOf x = pageOf vaddr
  · obtain rfl := same_area enforced.regular enforced.separate active low high active' low' high' here
    rw [here,Function.update_self]
    exact .inr (allowed.entry (frame_not_writable aligned))
  · rw [Function.update_of_ne here]
    exact .inl rfl

theorem Enforced.faultIn {frame : Option Nat} (fresh : Fresh ⟨s.words,tables⟩ pml4) (isFrame : ∀ f, frame = some f → IsFrame f)
    (mark : Nat) : Enforced pml4 (faultIn pml4 s i vaddr frame tables flags mark).1 := by
  unfold MmapPages.faultIn
  cases frame with
  | none => exact enforced
  | some page =>
    rw [← List.append_nil tables] at fresh
    obtain ⟨words,status,mapped,map,_,⟨rfl,entries⟩ | ⟨rfl,entries⟩⟩ :=
      Space.map_spec (s := s.take page) enforced.map fresh vaddr page flags
    · simp only [mapped]
      exact enforced.congr (alike_refl _) map (fun k x _ _ _ => .inl (congrFun entries _))
    · simp only [mapped]
      exact enforced.update active low high allowed (alike_put _ _ _) map (isFrame page rfl).mod_four entries

end

/-- What a fault is met with: pages, tables and pages of the page cache; a write to a private area is allowed there. -/
structure FaultOk (pml4 : Nat) (s : Space) (vaddr errorCode : Nat) (frame cached : Option Nat) (tables : List Nat) : Prop where
  frame : ∀ f, frame = some f → IsFrame f
  cached : ∀ f, cached = some f → f % 4 = 0
  tables : Fresh ⟨s.words,tables⟩ pml4
  writes : ∀ i, (s.context.areas i).active = true → (s.context.areas i).start ≤ vaddr →
    vaddr < (s.context.areas i).start + (s.context.areas i).length → (s.context.areas i).flags &&& mapPrivate ≠ 0 →
    errorCode &&& pfWrite ≠ 0 → (s.context.areas i).prot &&& protWrite ≠ 0

theorem Enforced.fault {errorCode : Nat} {frame cached : Option Nat} {tables : List Nat} (enforced : Enforced pml4 s)
    (ok : FaultOk pml4 s vaddr errorCode frame cached tables) :
    Enforced pml4 (mmapPageFaultHandler pml4 s vaddr errorCode frame cached tables).1 := by
  unfold mmapPageFaultHandler
  cases found : mmapFindAreaAt s.context vaddr with
  | none => exact enforced
  | some i =>
    obtain ⟨active,low,high⟩ := mmapFindAreaAt_eq_some enforced.toShaped found
    have start := (enforced.regular i active).start
    have low' : (s.context.areas i).start ≤ pageAlignDown vaddr := by
      unfold pageAlignDown pageSize at *
      omega
    have high' : pageAlignDown vaddr < (s.context.areas i).start + (s.context.areas i).length := by
      unfold pageAlignDown pageSize
      omega
    dsimp only
    split
    case isTrue isPrivate =>
      split
      case isTrue write =>
        exact enforced.faultIn active low' high' (writable_allowed (ok.writes i active low high isPrivate write)) ok.tables ok.frame _
      · exact enforced.faultIn active low' high' (cow_allowed _) ok.tables ok.frame _
    · split
      · cases page : cached with
        | none => exact enforced
        | some paddr =>
          have fresh := ok.tables
          rw [← List.append_nil tables] at fresh
          obtain ⟨words,status,mapped,map,_,⟨rfl,entries⟩ | ⟨rfl,entries⟩⟩ :=
            Space.map_spec enforced.map fresh (pageAlignDown vaddr) paddr (protToPteFlags (s.context.areas i).prot)
          · simp only [mapped]
            exact enforced.congr (alike_refl _) map (fun k x _ _ _ => .inl (congrFun entries _))
          · simp only [mapped]
            exact enforced.update active low' high' (protToPteFlags_allowed _) (alike_put _ _ _) map (ok.cached paddr page) entries
      · split
        · exact enforced.faultIn active low' high' (protToPteFlags_allowed _) ok.tables ok.frame _
        · exact enforced

theorem Enforced.shrink (enforced : Enforced pml4 s) (shaped : Shaped pml4 t) (shrinks : Shrinks pml4 s t) :
    Enforced pml4 t := by
  refine ⟨shaped,fun k x active low high => ?_⟩
  obtain ⟨i,busy,part⟩ := shrinks.areas k active
  rcases shrinks.entries (pageOf x) with same | zero
  · rw [same,part.prot]
    exact enforced.allowed i x busy (Nat.le_trans part.first low) (Nat.lt_of_lt_of_le high part.last)
  · rw [zero]
    exact allowed_zero _

end
end Kenux.MmapPages
