import Kenux.Bytes
import Kenux.Runs

/-!
The block map of `ext4.c` and the reading of a file through it. `assigned` is what the
indirect blocks of an inode mean, and the code agrees with it exactly where the block does
not change when its distance from the direct blocks is cut to 32 bits (`ext4_map_assigned`,
`ext4_map_cut`). In a tree of extents the right one is found if and only if the path has
room for the levels and the extent is written and below 32768 blocks
(`ext4_read_extent_reports`, `ext4_read_extent_unwritten`). Through either map a read gives
the bytes of the file up to its end (`ext4_read_file_shows`), given memory for the blocks
(`ext4_read_file_starved`): what `kmalloc` answers is an input.

A mount takes its divisors, its shift and its table of descriptors from a superblock it
does not check (`ext4_mount_faults`); `ext4_mount_robust` says for which they are in range.
-/
namespace Kenux.Ext4
open Kenux.Bytes (load load_lt)
open Kenux.Runs (Grant)

/-- A file system, and the sectors of its disk that can be read. -/
structure Fs where
  blockSize : Nat
  disk : Nat → Option (Nat → UInt8)
  mounted : Bool
  sized : 0 < blockSize

/-- The bytes of `i_block`, and the fields that are read. -/
structure Inode where
  bytes : Nat → UInt8
  iFlags : Nat
  iSizeLo : Nat
  iSizeHigh : Nat

def Inode.iBlock (inode : Inode) (i : Nat) : Nat := load inode.bytes (4 * i) 4

def ext4ReadBlockRaw (fs : Fs) (block : Nat) : Option (Nat → UInt8) :=
  let lba := block * (fs.blockSize / 512) % 2^64
  let sector := fun i => fs.disk ((lba + i) % 2^64)
  if fs.blockSize / 512 ≠ 0 ∧ ∀ i < fs.blockSize / 512, (sector i).isSome then
    some fun k => (sector (k / 512)).elim 0 fun bytes => bytes (k % 512)
  else none

/-- Why there is no result: the code returns -1, or it has left a node, the path or its buffer. -/
inductive Stop where
  | missing
  | outside
  deriving DecidableEq

def found : Option α → Except Stop α
  | none => .error .missing
  | some a => .ok a

/-- What is computed in a buffer of `kmalloc`. -/
def buffered (memory : Grant) (result : Except Stop α) : Except Stop α :=
  match memory with
  | .null => .error .missing
  | .apart => result
  | .overlapping => .error .outside

/-- A number in an indirect block, other than zero. -/
def pointer (fs : Fs) (indBlock index : Nat) : Option Nat := do
  let buf ← ext4ReadBlockRaw fs indBlock
  let blk := load buf (4 * index) 4
  if index < fs.blockSize / 4 ∧ blk ≠ 0 then some blk else none

def ext4ReadIndirectBlock (memory : Grant) (fs : Fs) (indBlock index : Nat) : Except Stop Nat :=
  buffered memory (found (pointer fs indBlock index))

/-- Numbers are subtracted after a comparison, and the first product of two 30-bit
    numbers fits. The buffers are allocated one after the other. -/
def ext4MapBlockIndirect (memory : Nat → Grant) (fs : Fs) (inode : Inode) (lblock : Nat) : Except Stop Nat :=
  let blockPerIndirect := fs.blockSize / 4
  if lblock < 12 then
    if inode.iBlock lblock ≠ 0 then .ok (inode.iBlock lblock) else .error .missing
  else
    let rel := (lblock - 12) % 2^32
    if rel < blockPerIndirect then
      if inode.iBlock 12 = 0 then .error .missing else ext4ReadIndirectBlock (memory 0) fs (inode.iBlock 12) rel
    else
      let rel2 := rel - blockPerIndirect
      let dindEntries := blockPerIndirect * blockPerIndirect
      if rel2 < dindEntries then
        if inode.iBlock 13 = 0 then .error .missing
        else do
          let indBlockNum ← ext4ReadIndirectBlock (memory 0) fs (inode.iBlock 13) (rel2 / blockPerIndirect)
          ext4ReadIndirectBlock (memory 1) fs indBlockNum (rel2 % blockPerIndirect)
      else
        let rel3 := rel2 - dindEntries
        let tindEntries := blockPerIndirect * dindEntries % 2^64
        if rel3 < tindEntries then
          if inode.iBlock 14 = 0 then .error .missing
          else do
            let dindBlockNum ← ext4ReadIndirectBlock (memory 0) fs (inode.iBlock 14) (rel3 / dindEntries)
            let remaining := rel3 % dindEntries
            let indBlockNum2 ← ext4ReadIndirectBlock (memory 1) fs dindBlockNum (remaining / blockPerIndirect)
            ext4ReadIndirectBlock (memory 2) fs indBlockNum2 (remaining % blockPerIndirect)
        else .error .missing

/-- Place `i` in the tree of `k` levels below a block. -/
def follow (fs : Fs) : Nat → Nat → Nat → Option Nat
  | 0, block, _ => some block
  | k+1, block, i => do
    let next ← pointer fs block (i / (fs.blockSize / 4)^k)
    follow fs k next (i % (fs.blockSize / 4)^k)

/-- The block of the format: twelve trees without a level, and one each of one, two
    and three levels. A pointer of zero is a hole. -/
def assigned (fs : Fs) (inode : Inode) (lblock : Nat) : Option Nat :=
  let per := fs.blockSize / 4
  let tree := fun k root i => if inode.iBlock root = 0 then none else follow fs k (inode.iBlock root) i
  if lblock < 12 then tree 0 lblock 0
  else if lblock - 12 < per then tree 1 12 (lblock - 12)
  else if lblock - 12 - per < per^2 then tree 2 13 (lblock - 12 - per)
  else if lblock - 12 - per - per^2 < per^3 then tree 3 14 (lblock - 12 - per - per^2)
  else none

@[simp] theorem found_none : found (none : Option α) = .error .missing := rfl

@[simp] theorem found_some (a : α) : found (some a) = .ok a := rfl

@[simp] theorem found_bind (o : Option α) (f : α → Option β) : found (o.bind f) = found o >>= fun a => found (f a) := by
  cases o <;> rfl

private theorem found_injective : Function.Injective (found (α := α)) := by
  rintro (_ | a) (_ | b) same <;> cases same <;> rfl

section
variable {memory : Nat → Grant} (granted : ∀ k, memory k = .apart) (fs : Fs) (inode : Inode) {lblock : Nat}
include granted

theorem ext4MapBlockIndirect_eq (fits : lblock < 2^32 + 12) :
    ext4MapBlockIndirect memory fs inode lblock = found (assigned fs inode lblock) := by
  have rel : (lblock - 12) % 2^32 = lblock - 12 := Nat.mod_eq_of_lt (by omega)
  unfold ext4MapBlockIndirect assigned
  simp only [rel,← Nat.pow_two,granted,ext4ReadIndirectBlock,buffered,apply_ite found]
  generalize per_eq : fs.blockSize / 4 = per
  by_cases direct : lblock < 12
  · simp [direct,follow]
  by_cases single : lblock - 12 < per
  · simp [direct,single,follow]
  by_cases double : lblock - 12 - per < per^2
  · simp [direct,single,double,follow,per_eq]
  -- the last tree is reached only when a block holds fewer than `2^16` pointers
  have small : per < 2^16 := by
    by_contra large
    have square := Nat.pow_le_pow_left (Nat.le_of_not_lt large) 2
    omega
  have cube : per * per^2 % 2^64 = per^3 := by
    have bound : per^3 < (2^16)^3 := Nat.pow_lt_pow_left small nofun
    rw [← Nat.pow_succ']
    exact Nat.mod_eq_of_lt (Nat.lt_trans bound (by decide))
  rw [cube]
  simp [direct,single,double,follow,per_eq]

/-- The distance from the direct blocks is cut to 32 bits. -/
theorem ext4MapBlockIndirect_cut (far : 12 ≤ lblock) :
    ext4MapBlockIndirect memory fs inode lblock = found (assigned fs inode (12 + (lblock - 12) % 2^32)) := by
  have low := Nat.mod_lt (lblock - 12) (show 0 < 2^32 by decide)
  rw [← ext4MapBlockIndirect_eq granted fs inode (by omega)]
  unfold ext4MapBlockIndirect
  simp only [Nat.not_lt.mpr far,show ¬ 12 + (lblock - 12) % 2^32 < 12 by omega,if_false,Nat.add_sub_cancel_left,Nat.mod_mod]

end

def ones : Fs := ⟨1024,fun _ => some fun _ => 1,true,by decide⟩

def onesFile : Inode := ⟨fun _ => 1,0,0,2^30⟩

def plenty : Nat → Grant := fun _ => .apart

/-- A node of an extent tree: `i_block`, or a block of the disk. -/
structure ExtentNode where
  bytes : Nat → UInt8
  size : Nat

def ext4ExtMagic : Nat := 0xF30A
def ext4MaxDepth : Nat := 4

namespace ExtentNode
variable (node : ExtentNode) (lblock i : Nat)

def ehMagic : Nat := load node.bytes 0 2
def ehEntries : Nat := load node.bytes 2 2
def ehDepth : Nat := load node.bytes 6 2

def field (o n : Nat) : Nat := load node.bytes (12 * (i + 1) + o) n

def eiBlock : Nat := node.field i 0 4
def leafBlock : Nat := node.field i 8 2 <<< 32 ||| node.field i 4 4
def eeBlock : Nat := node.field i 0 4
def eeLen : Nat := node.field i 4 2
def eeStart : Nat := node.field i 6 2 <<< 32 ||| node.field i 8 4

def actualLen : Nat :=
  let actualLen := if (node.eeLen i).testBit 15 then node.eeLen i - 0x8000 else node.eeLen i
  if actualLen = 0 then 1 else actualLen

/-- The block below the index entry for `lblock`, with `left` entries from `i` on. -/
def findIdx : Nat → Nat → Except Stop Nat
  | 0, _ => .error .missing
  | left+1, i =>
    if node.size < 12 * (i + 2) then .error .outside
    else if lblock < node.eiBlock i then findIdx left (i+1)
    else if left = 0 then .ok (node.leafBlock i)
    else if node.size < 12 * (i + 3) then .error .outside
    else if node.eiBlock (i+1) ≤ lblock then findIdx left (i+1)
    else .ok (node.leafBlock i)

/-- The physical block, and the blocks from there to the end of the extent. -/
def findExtent : Nat → Nat → Except Stop (Nat × Nat)
  | 0, _ => .error .missing
  | left+1, i =>
    if node.size < 12 * (i + 2) then .error .outside
    else if node.eeBlock i ≤ lblock ∧ lblock < node.eeBlock i + node.actualLen i then
      .ok (node.eeStart i + (lblock - node.eeBlock i),node.eeBlock i + node.actualLen i - lblock)
    else findExtent left (i+1)

end ExtentNode

/-- From a node down to the leaf; the path has four places. -/
def descend (fs : Fs) (lblock : Nat) : Nat → Nat → ExtentNode → Except Stop ExtentNode
  | 0, _, node => .ok node
  | depth+1, pathIdx, node =>
    if node.ehMagic ≠ ext4ExtMagic then .error .missing
    else do
      match ext4ReadBlockRaw fs (← node.findIdx lblock node.ehEntries 0) with
      | none => .error .missing
      | some blockBuf =>
        if pathIdx < ext4MaxDepth then descend fs lblock depth (pathIdx + 1) ⟨blockBuf,fs.blockSize⟩
        else .error .outside

def readLeaf (lblock : Nat) (leaf : ExtentNode) : Except Stop (Nat × Nat) :=
  if leaf.ehMagic ≠ ext4ExtMagic then .error .missing else leaf.findExtent lblock leaf.ehEntries 0

def Inode.eh (inode : Inode) : ExtentNode := ⟨inode.bytes,60⟩

def ext4ReadExtentBlock (memory : Nat → Grant) (fs : Fs) (inode : Inode) (lblock : Nat) : Except Stop (Nat × Nat) :=
  if !inode.iFlags.testBit 19 then (·,1) <$> ext4MapBlockIndirect memory fs inode lblock
  else if inode.eh.ehMagic ≠ ext4ExtMagic then .error .missing
  else buffered (memory 0) (descend fs lblock inode.eh.ehDepth 0 inode.eh >>= readLeaf lblock)

/-- An extent of the format: a length above 32768 is that of an unwritten one. -/
structure Extent where
  block : Nat
  len : Nat
  start : Nat
  written : Bool

def ExtentNode.extent (node : ExtentNode) (i : Nat) : Extent :=
  ⟨node.eeBlock i,if node.eeLen i ≤ 32768 then node.eeLen i else node.eeLen i - 32768,node.eeStart i,node.eeLen i ≤ 32768⟩

def Extent.Has (e : Extent) (lblock : Nat) : Prop := e.block ≤ lblock ∧ lblock < e.block + e.len

/-- The extents of the tree below a node. -/
def Holds (fs : Fs) : Nat → ExtentNode → Extent → Prop
  | 0, node, e => ∃ i < node.ehEntries, e = node.extent i
  | depth+1, node, e => ∃ i < node.ehEntries, ∃ buf, ext4ReadBlockRaw fs (node.leafBlock i) = some buf ∧
      Holds fs depth ⟨buf,fs.blockSize⟩ e

/-- The extents of the tree that have a block. -/
def Covers (fs : Fs) (depth : Nat) (node : ExtentNode) (lblock : Nat) (e : Extent) : Prop :=
  Holds fs depth node e ∧ e.Has lblock

/-- The entries with the last key up to `lblock` lead to a leaf. -/
def Leads (fs : Fs) (lblock : Nat) : Nat → ExtentNode → Prop
  | 0, _ => True
  | depth+1, node => ∃ k < node.ehEntries, node.eiBlock k ≤ lblock ∧ (k + 1 < node.ehEntries → lblock < node.eiBlock (k+1)) ∧
      ∃ buf, ext4ReadBlockRaw fs (node.leafBlock k) = some buf ∧ Leads fs lblock depth ⟨buf,fs.blockSize⟩

/-- A node has room for its entries. -/
structure ExtentNode.Whole (node : ExtentNode) : Prop where
  magic : node.ehMagic = ext4ExtMagic
  room : 12 * (node.ehEntries + 1) ≤ node.size

/-- The tree is well-formed: the extents are sorted and do not overlap, and the index
    entries are sorted and cover their subtrees. -/
def Formed (fs : Fs) : Nat → ExtentNode → Nat → Nat → Prop
  | 0, node, low, high => node.Whole ∧ ∀ i < node.ehEntries, low ≤ (node.extent i).block ∧ 0 < (node.extent i).len ∧
      (node.extent i).block + (node.extent i).len ≤ high ∧
        ∀ j < i, (node.extent j).block + (node.extent j).len ≤ (node.extent i).block
  | depth+1, node, low, high => node.Whole ∧ ∀ i < node.ehEntries, low ≤ node.eiBlock i ∧
      (∀ j ≤ i, node.eiBlock j ≤ node.eiBlock i) ∧ ∃ buf top, ext4ReadBlockRaw fs (node.leafBlock i) = some buf ∧
        Formed fs depth ⟨buf,fs.blockSize⟩ (node.eiBlock i) top ∧ top ≤ high ∧
          ∀ j < node.ehEntries, i < j → top ≤ node.eiBlock j

/-- The block in the written extent that has `lblock` and a run that ends in the extent, or a hole
    if there is none. -/
def Reports (lblock : Nat) (covers : Extent → Prop) : Except Stop (Nat × Nat) → Prop
  | .ok (pblock,run) => ∃ e, covers e ∧ e.written ∧ pblock = e.start + (lblock - e.block) ∧ lblock + run ≤ e.block + e.len
  | .error .missing => ∀ e, covers e → e.written = false
  | .error .outside => False

/-- What the code takes for the length of an extent is its length, or `lblock` is its first block. -/
def Extent.Plain (e : Extent) (lblock : Nat) : Prop := e.written ∧ (e.len < 32768 ∨ lblock = e.block)

section
variable {fs : Fs} {node : ExtentNode} {e : Extent} (lblock : Nat)

/-- Only a written extent of 32768 blocks is taken for a shorter one. -/
theorem actualLen_cases {i : Nat} (used : 0 < (node.extent i).len) :
    node.actualLen i = (node.extent i).len ∧ ((node.extent i).written → (node.extent i).len < 32768) ∨
      node.actualLen i = 1 ∧ (node.extent i).written ∧ (node.extent i).len = 32768 := by
  have wide : node.eeLen i < 2^16 := load_lt
  simp only [ExtentNode.extent,ExtentNode.actualLen,decide_eq_true_eq] at used ⊢
  rcases Nat.lt_trichotomy (node.eeLen i) 32768 with short | full | long
  · rw [Nat.testBit_lt_two_pow (show node.eeLen i < 2^15 from short)]
    rw [if_pos (Nat.le_of_lt short)] at used ⊢
    exact .inl ⟨by simp [Nat.ne_of_gt used],fun _ => short⟩
  · have bit : Nat.testBit 32768 15 := by decide
    exact .inr (by simp [full,bit])
  · have bit : (node.eeLen i).testBit 15 := by
      rw [Nat.testBit_eq_decide_div_mod_eq]
      simp only [decide_eq_true_eq]
      omega
    rw [if_neg (Nat.not_le.mpr long)] at used ⊢
    exact .inl ⟨by simp [bit,Nat.ne_of_gt used],fun le => by omega⟩

def ExtentNode.Seen (node : ExtentNode) (lblock i : Nat) : Prop :=
  node.eeBlock i ≤ lblock ∧ lblock < node.eeBlock i + node.actualLen i

theorem findExtent_cases (whole : node.Whole) (left : Nat) : ∀ i, i + left = node.ehEntries →
    (∃ k < node.ehEntries, node.Seen lblock k ∧ node.findExtent lblock left i =
      .ok (node.eeStart k + (lblock - node.eeBlock k),node.eeBlock k + node.actualLen k - lblock)) ∨
    (∀ k < node.ehEntries, i ≤ k → ¬ node.Seen lblock k) ∧ node.findExtent lblock left i = .error .missing := by
  have room := whole.room
  induction left with
  | zero => exact fun i all => .inr ⟨fun k low high => by omega,rfl⟩
  | succ left ih =>
    intro i all
    rw [ExtentNode.findExtent,if_neg (by omega)]
    by_cases here : node.eeBlock i ≤ lblock ∧ lblock < node.eeBlock i + node.actualLen i
    · exact .inl ⟨i,by omega,here,if_pos here⟩
    rw [if_neg here]
    rcases ih (i+1) (by omega) with found | ⟨none,missing⟩
    · exact .inl found
    · refine .inr ⟨fun k less first => ?_,missing⟩
      rcases Nat.eq_or_lt_of_le first with rfl | later
      · exact here
      · exact none k less later

theorem findIdx_cases (whole : node.Whole) (left : Nat) : ∀ i, i + left = node.ehEntries →
    (∃ k < node.ehEntries, node.eiBlock k ≤ lblock ∧ (k + 1 < node.ehEntries → lblock < node.eiBlock (k+1)) ∧
      node.findIdx lblock left i = .ok (node.leafBlock k)) ∨
    (∀ k < node.ehEntries, i ≤ k → lblock < node.eiBlock k) ∧ node.findIdx lblock left i = .error .missing := by
  have room := whole.room
  induction left with
  | zero => exact fun i all => .inr ⟨fun k low high => by omega,rfl⟩
  | succ left ih =>
    intro i all
    rw [ExtentNode.findIdx,if_neg (by omega)]
    split
    case isTrue before =>
      rcases ih (i+1) (by omega) with found | ⟨none,missing⟩
      · exact .inl found
      · refine .inr ⟨fun k less first => ?_,missing⟩
        rcases Nat.eq_or_lt_of_le first with rfl | later
        · exact before
        · exact none k less later
    rename_i before
    have reached := Nat.le_of_not_lt before
    by_cases last : left = 0
    · exact .inl ⟨i,by omega,reached,fun more => by omega,if_pos last⟩
    rw [if_neg last,if_neg (by omega)]
    by_cases next : node.eiBlock (i+1) ≤ lblock
    · rw [if_pos next]
      rcases ih (i+1) (by omega) with found | ⟨none,-⟩
      · exact .inl found
      · exact absurd (none (i+1) (by omega) (Nat.le_refl _)) (Nat.not_lt.mpr next)
    · exact .inl ⟨i,by omega,reached,fun _ => Nat.lt_of_not_le next,if_neg next⟩

theorem Formed.within (depth : Nat) : ∀ node low high, Formed fs depth node low high → Holds fs depth node e →
    low ≤ e.block ∧ e.block + e.len ≤ high := by
  induction depth with
  | zero =>
    rintro node low high ⟨_,formed⟩ ⟨i,less,rfl⟩
    exact ⟨(formed i less).1,(formed i less).2.2.1⟩
  | succ depth ih =>
    rintro node low high ⟨_,formed⟩ ⟨i,less,buf,read,holds⟩
    obtain ⟨above,-,buf,top,read',child,below,-⟩ := formed i less
    cases read.symm.trans read'
    have inside := ih _ _ _ child holds
    omega

/-- The extents of a leaf do not overlap. -/
theorem covers_only {low high k : Nat} (formed : Formed fs 0 node low high) (less : k < node.ehEntries)
    (has : (node.extent k).Has lblock) : ∀ e, Covers fs 0 node lblock e → e = node.extent k := by
  rintro e ⟨⟨i,there,rfl⟩,begins,ends⟩
  rcases Nat.lt_trichotomy i k with before | rfl | after
  · have := (formed.2 k less).2.2.2 i before
    have := has.1
    omega
  · rfl
  · have := (formed.2 i there).2.2.2 k after
    have := has.2
    omega

/-- In a leaf the right extent is found if and only if it is a plain one. -/
theorem findExtent_reports {low high : Nat} (formed : Formed fs 0 node low high) :
    Reports lblock (Covers fs 0 node lblock) (node.findExtent lblock node.ehEntries 0) ↔
      ∀ e, Covers fs 0 node lblock e → e.Plain lblock := by
  have ⟨whole,sorted⟩ := formed
  rcases findExtent_cases lblock whole _ 0 (Nat.zero_add _) with ⟨k,less,seen,found⟩ | ⟨none,missing⟩
  · have length := actualLen_cases (sorted k less).2.1
    have seen : (node.extent k).block ≤ lblock ∧ lblock < (node.extent k).block + node.actualLen k := seen
    have has : (node.extent k).Has lblock := ⟨seen.1,by omega⟩
    have only := covers_only lblock formed less has
    rw [found]
    constructor
    · rintro ⟨e,covers,written,-⟩ e' covers'
      rw [only e covers] at written
      rw [only e' covers']
      refine ⟨written,?_⟩
      rcases length with ⟨-,short⟩ | ⟨one,-⟩
      · exact .inl (short written)
      · exact .inr (by omega)
    · intro plain
      refine ⟨node.extent k,⟨⟨k,less,rfl⟩,has⟩,(plain _ ⟨⟨k,less,rfl⟩,has⟩).1,rfl,?_⟩
      change lblock + ((node.extent k).block + node.actualLen k - lblock) ≤ (node.extent k).block + (node.extent k).len
      omega
  · rw [missing]
    have unseen : ∀ e, Covers fs 0 node lblock e → e.written ∧ e.len = 32768 ∧ lblock ≠ e.block := by
      rintro e ⟨⟨i,there,rfl⟩,has⟩
      have length := actualLen_cases (sorted i there).2.1
      have away : ¬ ((node.extent i).block ≤ lblock ∧ lblock < (node.extent i).block + node.actualLen i) :=
        none i there (Nat.zero_le i)
      obtain ⟨begins,ends⟩ := has
      rcases length with ⟨same,-⟩ | ⟨one,written,full⟩
      · omega
      · exact ⟨written,full,by omega⟩
    constructor
    · intro hole e covers
      exact absurd (unseen e covers).1 (by simp [hole e covers])
    · intro plain e covers
      obtain ⟨-,full,off⟩ := unseen e covers
      rcases (plain e covers).2 with short | first <;> omega

section
variable {depth low high : Nat} (formed : Formed fs (depth+1) node low high)
include formed

/-- Extents with a block are below the entry that is followed for it. -/
theorem covers_child {k : Nat} (less : k < node.ehEntries) (first : node.eiBlock k ≤ lblock)
    (last : k + 1 < node.ehEntries → lblock < node.eiBlock (k+1)) {buf : Nat → UInt8}
    (read : ext4ReadBlockRaw fs (node.leafBlock k) = some buf) :
    Covers fs (depth+1) node lblock = Covers fs depth ⟨buf,fs.blockSize⟩ lblock := by
  funext e
  refine propext ⟨?_,fun ⟨holds,has⟩ => ⟨⟨k,less,buf,read,holds⟩,has⟩⟩
  rintro ⟨⟨i,there,buf,read',holds⟩,has⟩
  obtain ⟨-,sorted,buf,top,read'',child,-,later⟩ := formed.2 i there
  cases read'.symm.trans read''
  have inside := Formed.within depth _ _ _ child holds
  have reaches : e.block ≤ lblock ∧ lblock < e.block + e.len := has
  -- the keys are sorted, so that no other subtree has the block
  rcases Nat.lt_trichotomy i k with before | rfl | after
  · have := later k less before
    omega
  · cases read.symm.trans read'
    exact ⟨holds,has⟩
  · have := sorted (k+1) after
    omega

theorem covers_none (none : ∀ k < node.ehEntries, lblock < node.eiBlock k) (e : Extent) :
    ¬ Covers fs (depth+1) node lblock e := by
  rintro ⟨⟨i,there,buf,read,holds⟩,has⟩
  obtain ⟨-,-,buf,top,read',child,-⟩ := formed.2 i there
  cases read.symm.trans read'
  have inside := Formed.within depth _ _ _ child holds
  have before := none i there
  exact absurd has.1 (by omega)

/-- One level of the search: on to the child that has the block, or to a hole. -/
theorem descend_cases (pathIdx : Nat) :
    (∃ buf top low', Formed fs depth ⟨buf,fs.blockSize⟩ low' top ∧
      Covers fs (depth+1) node lblock = Covers fs depth ⟨buf,fs.blockSize⟩ lblock ∧
      (Leads fs lblock (depth+1) node ↔ Leads fs lblock depth ⟨buf,fs.blockSize⟩) ∧
      descend fs lblock (depth+1) pathIdx node =
        if pathIdx < ext4MaxDepth then descend fs lblock depth (pathIdx + 1) ⟨buf,fs.blockSize⟩ else .error .outside) ∨
    (∀ e, ¬ Covers fs (depth+1) node lblock e) ∧ ¬ Leads fs lblock (depth+1) node ∧
      descend fs lblock (depth+1) pathIdx node = .error .missing := by
  have whole := formed.1
  rcases findIdx_cases lblock whole _ 0 (Nat.zero_add _) with ⟨k,less,first,last,found⟩ | ⟨none,missing⟩
  · obtain ⟨-,-,buf,top,read,child,-⟩ := formed.2 k less
    refine .inl ⟨buf,top,_,child,covers_child lblock formed less first last read,⟨?_,?_⟩,?_⟩
    · rintro ⟨i,there,first',last',buf',read',leads⟩
      have same : i = k := by
        rcases Nat.lt_trichotomy i k with before | same | after
        · have := (formed.2 k less).2.1 (i+1) before
          omega
        · exact same
        · have := (formed.2 i there).2.1 (k+1) after
          omega
      subst same
      cases read.symm.trans read'
      exact leads
    · exact fun leads => ⟨k,less,first,last,buf,read,leads⟩
    · simp [descend,whole.magic,found,read,bind,Except.bind]
  · refine .inr ⟨covers_none lblock formed (fun k less => none k less (Nat.zero_le k)),?_,?_⟩
    · rintro ⟨k,less,first,-⟩
      exact absurd (none k less (Nat.zero_le k)) (Nat.not_lt.mpr first)
    · simp [descend,missing,bind,Except.bind]

end

theorem descend_reports (depth : Nat) : ∀ pathIdx node low high, Formed fs depth node low high → pathIdx + depth ≤ ext4MaxDepth →
    (Reports lblock (Covers fs depth node lblock) (descend fs lblock depth pathIdx node >>= readLeaf lblock) ↔
      ∀ e, Covers fs depth node lblock e → e.Plain lblock) := by
  induction depth with
  | zero =>
    intro pathIdx node low high formed _
    have leaf : (descend fs lblock 0 pathIdx node >>= readLeaf lblock) = node.findExtent lblock node.ehEntries 0 := by
      simp [descend,readLeaf,formed.1.magic,bind,Except.bind]
    rw [leaf]
    exact findExtent_reports lblock formed
  | succ depth ih =>
    intro pathIdx node low high formed short
    rcases descend_cases lblock formed pathIdx with ⟨buf,top,low',child,same,-,goes⟩ | ⟨none,-,stops⟩
    · rw [goes,if_pos (by omega),same]
      exact ih _ _ _ _ child (by omega)
    · rw [stops]
      exact iff_of_true (fun e covers => absurd covers (none e)) (fun e covers => absurd covers (none e))

/-- A tree of five levels has no place for the last step of the path. -/
theorem descend_deep (depth : Nat) : ∀ pathIdx node low high, Formed fs depth node low high →
    pathIdx + depth = ext4MaxDepth + 1 → pathIdx ≤ ext4MaxDepth →
    (Leads fs lblock depth node → descend fs lblock depth pathIdx node = .error .outside) ∧
    (¬ Leads fs lblock depth node → descend fs lblock depth pathIdx node = .error .missing ∧ ∀ e, ¬ Covers fs depth node lblock e) := by
  induction depth with
  | zero => exact fun _ _ _ _ _ deep place => by omega
  | succ depth ih =>
    intro pathIdx node low high formed deep place
    rcases descend_cases lblock formed pathIdx with ⟨buf,top,low',child,same,leads,goes⟩ | ⟨none,stays,stops⟩
    · rw [goes,same,leads]
      by_cases last : pathIdx < ext4MaxDepth
      · rw [if_pos last]
        exact ih _ _ _ _ child (by omega) last
      · rw [if_neg last]
        obtain rfl : depth = 0 := by omega
        simp [Leads]
    · exact ⟨fun leads => absurd leads stays,fun _ => ⟨stops,none⟩⟩

end

def oneExtent (lenHigh : UInt8) : Inode :=
  ⟨fun k => [0x0A,0xF3,1,0,4,0,0,0,0,0,0,0,0,0,0,0,1,lenHigh,0,0,7].getD k 0,0x80000,0,0⟩

def ext4InodeSize64 (inode : Inode) : Nat := inode.iSizeHigh <<< 32 ||| inode.iSizeLo

/-- What is copied for a block: zeros, where there is none or it cannot be read. -/
def blockBuf (memory : Nat → Grant) (fs : Fs) (inode : Inode) (lblock : Nat) : Option (Nat → UInt8) :=
  match ext4ReadExtentBlock memory fs inode lblock with
  | .ok (physBlock,_) => some ((ext4ReadBlockRaw fs physBlock).getD fun _ => 0)
  | .error .missing => some fun _ => 0
  | .error .outside => none

/-- The loop, with the buffer filled up to `dst`; each round maps another block, in `memory` of its own. -/
def readLoop (memory : Nat → Nat → Grant) (fs : Fs) (inode : Inode) : Nat → (Nat → UInt8) → Nat → Nat → Nat → Option (Nat → UInt8)
  | 0, _, _, _, _ => none
  | fuel+1, buf, dst, curOffset, remaining =>
    if remaining = 0 then some buf
    else do
      let blockOff := curOffset % fs.blockSize
      let toRead := min (fs.blockSize - blockOff) remaining
      let lblock := curOffset / fs.blockSize
      let bytes ← blockBuf (memory lblock) fs inode lblock
      let buf := fun k => if dst ≤ k ∧ k < dst + toRead then bytes (blockOff + (k - dst)) else buf k
      readLoop memory fs inode fuel buf (dst + toRead) ((curOffset + toRead) % 2^64) (remaining - toRead)

/-- The number returned, and the buffer; `block` is the memory for a block. -/
def ext4ReadFile (fuel : Nat) (block : Grant) (memory : Nat → Nat → Grant) (fs : Fs) (inode : Inode) (buf : Nat → UInt8)
    (offset len : Nat) : Option (Int × (Nat → UInt8)) :=
  let fileSize := ext4InodeSize64 inode
  if !fs.mounted then some (-1,buf)
  else if fileSize ≤ offset then some (0,buf)
  else
    let len := if fileSize < (offset + len) % 2^64 then fileSize - offset else len
    match block with
    | .null => some (-1,buf)
    | .overlapping => none
    | .apart => (readLoop memory fs inode fuel buf 0 offset len).map (Int.bmod len (2^32),·)

/-- The byte at a place of the file: that of the block mapped there, or zero in a hole. -/
structure Shows (fs : Fs) (inode : Inode) (pos : Nat) (byte : UInt8) : Prop where
  mapped : ∀ physBlock run bytes, ext4ReadExtentBlock plenty fs inode (pos / fs.blockSize) = .ok (physBlock,run) →
    ext4ReadBlockRaw fs physBlock = some bytes → byte = bytes (pos % fs.blockSize)
  hole : ext4ReadExtentBlock plenty fs inode (pos / fs.blockSize) = .error .missing → byte = 0

section
variable {fs : Fs} {inode : Inode} (inside : ∀ lblock, ext4ReadExtentBlock plenty fs inode lblock ≠ .error .outside)
include inside

theorem blockBuf_shows (lblock : Nat) : ∃ bytes, blockBuf plenty fs inode lblock = some bytes ∧
    ∀ pos, pos / fs.blockSize = lblock → Shows fs inode pos (bytes (pos % fs.blockSize)) := by
  unfold blockBuf
  cases found : ext4ReadExtentBlock plenty fs inode lblock with
  | ok place =>
    refine ⟨_,rfl,fun pos here => ⟨fun physBlock run bytes same read => ?_,fun hole => ?_⟩⟩
    · rw [here,found] at same
      cases same
      simp [read]
    · simp [here,found] at hole
  | error stop =>
    cases stop with
    | missing => exact ⟨_,rfl,fun pos here => ⟨fun _ _ _ same => by simp [here,found] at same,fun _ => rfl⟩⟩
    | outside => exact absurd found (inside lblock)

theorem readLoop_shows (fuel : Nat) (buf : Nat → UInt8) (dst curOffset remaining : Nat) (enough : remaining < fuel)
    (fits : curOffset + remaining < 2^64) :
    ∃ out, readLoop (fun _ => plenty) fs inode fuel buf dst curOffset remaining = some out ∧
      (∀ k < remaining, Shows fs inode (curOffset + k) (out (dst + k))) ∧
        ∀ k, k < dst ∨ dst + remaining ≤ k → out k = buf k := by
  induction fuel generalizing buf dst curOffset remaining with
  | zero => omega
  | succ fuel ih =>
    by_cases done : remaining = 0
    · exact ⟨buf,by simp [readLoop,done],by simp [done],fun _ _ => rfl⟩
    obtain ⟨bytes,read,shown⟩ := blockBuf_shows inside (curOffset / fs.blockSize)
    have some_left := Nat.mod_lt curOffset fs.sized
    have split := Nat.div_add_mod curOffset fs.blockSize
    simp only [readLoop,done,read]
    generalize toRead_eq : min (fs.blockSize - curOffset % fs.blockSize) remaining = toRead
    rw [Nat.mod_eq_of_lt (a := curOffset + toRead) (by omega)]
    obtain ⟨out,ran,filled,kept⟩ := ih _ (dst + toRead) (curOffset + toRead) (remaining - toRead) (by omega) (by omega)
    refine ⟨out,ran,fun k low => ?_,fun k apart => ?_⟩
    · by_cases here : k < toRead
      · have place : (curOffset + k) / fs.blockSize = curOffset / fs.blockSize ∧
            (curOffset + k) % fs.blockSize = curOffset % fs.blockSize + k := by
          rw [Nat.div_mod_unique fs.sized]
          omega
        have byte := shown _ place.1
        rw [place.2] at byte
        simpa [kept (dst + k) (by omega),here] using byte
      · have later := filled (k - toRead) (by omega)
        rwa [show curOffset + toRead + (k - toRead) = curOffset + k by omega,
          show dst + toRead + (k - toRead) = dst + k by omega] at later
    · rw [kept k (by omega),if_neg (by omega)]

end

/-- With memory for its buffers, a read gets the bytes of the file that are there, and zeros in holes. -/
theorem ext4_read_file_shows (memory : Nat → Nat → Grant) (fs : Fs) (inode : Inode) (buf : Nat → UInt8) (offset len fuel : Nat)
    (mounted : fs.mounted) (size : ext4InodeSize64 inode < 2^63) (short : len < 2^31) (enough : len < fuel)
    (granted : ∀ lblock k, memory lblock k = .apart)
    (inside : ∀ lblock, ext4ReadExtentBlock plenty fs inode lblock ≠ .error .outside) :
    ∃ out, ext4ReadFile fuel .apart memory fs inode buf offset len = some (↑(min len (ext4InodeSize64 inode - offset)),out) ∧
      (∀ k < min len (ext4InodeSize64 inode - offset), Shows fs inode (offset + k) (out k)) ∧
        ∀ k, min len (ext4InodeSize64 inode - offset) ≤ k → out k = buf k := by
  obtain rfl : memory = fun _ => plenty := funext fun lblock => funext (granted lblock)
  unfold ext4ReadFile
  by_cases past : ext4InodeSize64 inode ≤ offset
  · exact ⟨buf,by simp [mounted,past],by simp [Nat.sub_eq_zero_of_le past],fun _ _ => rfl⟩
  have count : (if ext4InodeSize64 inode < (offset + len) % 2^64 then ext4InodeSize64 inode - offset else len) =
      min len (ext4InodeSize64 inode - offset) := by
    split <;> omega
  obtain ⟨out,ran,filled,kept⟩ := readLoop_shows inside fuel buf 0 offset (min len (ext4InodeSize64 inode - offset))
    (by omega) (by omega)
  refine ⟨out,?_,fun k low => by simpa using filled k low,fun k high => kept k (.inr (by omega))⟩
  simp only [mounted,past,count,ran]
  rw [Int.bmod_eq_of_le (by omega) (by omega)]
  simp

theorem ext4_read_file_shows_end : ∃ out, ext4ReadFile 101 .apart (fun _ => plenty) ones onesFile (fun _ => 0) (2^62 - 10) 100 = some (10,out) ∧
    ∀ k < 10, Shows ones onesFile (2^62 - 10 + k) (out k) := by
  have direct : onesFile.iFlags.testBit 19 = false := by decide
  have inside : ∀ lblock, ext4ReadExtentBlock plenty ones onesFile lblock ≠ .error .outside := by
    intro lblock
    obtain ⟨place,maps⟩ : ∃ place, ext4MapBlockIndirect plenty ones onesFile lblock = found place := by
      by_cases low : lblock < 12
      · exact ⟨_,ext4MapBlockIndirect_eq (fun _ => rfl) _ _ (by omega)⟩
      · exact ⟨_,ext4MapBlockIndirect_cut (fun _ => rfl) _ _ (by omega)⟩
    cases place <;> simp [ext4ReadExtentBlock,direct,maps,Functor.map,Except.map]
  have count : min 100 (ext4InodeSize64 onesFile - (2^62 - 10)) = 10 := by decide
  obtain ⟨out,ran,filled,-⟩ := ext4_read_file_shows (fun _ => plenty) ones onesFile (fun _ => 0) (2^62 - 10) 100 101 rfl
    (by decide) (by decide) (by decide) (fun _ _ => rfl) inside
  rw [count] at ran filled
  exact ⟨out,ran,filled⟩

/-- Without memory for a block the answer is -1, though there are bytes to read. -/
theorem ext4_read_file_starved : (ext4ReadFile 11 .null (fun _ => plenty) ones onesFile (fun _ => 0) 0 10).map Prod.fst = some (-1) ∧
    min 10 (ext4InodeSize64 onesFile - 0) = 10 := by
  decide

/-! ### Mounting -/

/-- A division by zero, a shift by 32 or more, and a use outside the table of descriptors or
    outside the buffer they are read to. -/
inductive Fault where
  | divide
  | shift
  | table
  | buffer

structure Superblock where
  bytes : Nat → UInt8

namespace Superblock
variable (sb : Superblock)

def sInodesCount : Nat := load sb.bytes 0 4
def sBlocksCount : Nat := load sb.bytes 336 4 <<< 32 ||| load sb.bytes 4 4
def sFirstDataBlock : Nat := load sb.bytes 20 4
def sLogBlockSize : Nat := load sb.bytes 24 4
def sBlocksPerGroup : Nat := load sb.bytes 32 4
def sInodesPerGroup : Nat := load sb.bytes 40 4
def sMagic : Nat := load sb.bytes 56 2
def sInodeSize : Nat := load sb.bytes 88 2
def sFeatureIncompat : Nat := load sb.bytes 96 4
def sDescSize : Nat := load sb.bytes 254 2

end Superblock

/-- The disk, the bytes of the block that `kmalloc` returns for a size, and whether there is a slot
    for the file system and memory for its root. -/
structure Env where
  disk : Nat → Option (Nat → UInt8)
  kmalloc : Nat → Option Nat
  slot : Bool
  node : Bool

def Env.superblock (env : Env) : Option Superblock := do
  let low ← env.disk 2
  let high ← env.disk 3
  some ⟨fun k => if k < 512 then low k else high (k - 512)⟩

def ext4SuperMagic : Nat := 0xEF53
def sizeofGroupDesc : Nat := 64

namespace Superblock
variable (sb : Superblock)

def blockSize : Nat := 1024 <<< sb.sLogBlockSize % 2^32

def descSize : Nat := if sb.sFeatureIncompat.testBit 7 then max sb.sDescSize sizeofGroupDesc else 32

def groupCount : Nat :=
  let groupsNeeded := (sb.sInodesCount + sb.sInodesPerGroup - 1) / sb.sInodesPerGroup % 2^32
  let blocksPerGroup := if sb.sBlocksPerGroup = 0 then 1 else sb.sBlocksPerGroup
  let groupsByBlocks := (sb.sBlocksCount + blocksPerGroup - 1) % 2^64 / blocksPerGroup
  max groupsByBlocks groupsNeeded % 2^32

def gdtTotalBytes : Nat := sb.groupCount * sb.descSize

def gdtSizeBlocks : Nat := (sb.gdtTotalBytes + sb.blockSize - 1) / sb.blockSize % 2^32

/-- Block `b` of the descriptors on the disk. -/
def gdtBlock (fs : Fs) (b : Nat) : Option (Nat → UInt8) := ext4ReadBlockRaw fs ((sb.sFirstDataBlock + 1 + b) % 2^32)

end Superblock

/-- A mounted file system; `gdt` is the inode table of a group, from a table of `gdtBytes`. -/
structure Mount extends Fs where
  inodeSize : Nat
  inodesPerGroup : Nat
  groupCount : Nat
  gdtBytes : Nat
  gdt : Nat → Nat
  groups : inodesPerGroup ≠ 0

/-- The descriptors are read and copied to a table. The inode of the journal is not read,
    since nothing is mounted yet. -/
def readGroups (env : Env) (sb : Superblock) (groups : sb.sInodesPerGroup ≠ 0) (fs : Fs) : Except Fault (Option Mount) :=
  match env.kmalloc sb.gdtTotalBytes, env.kmalloc (sb.blockSize * sb.gdtSizeBlocks % 2^32) with
  | some table, some buffer =>
    -- a block is read past the buffer when all before it could be read
    if ∃ b < sb.gdtSizeBlocks, buffer < sb.blockSize * (b + 1) ∧ ∀ before < b, (sb.gdtBlock fs before).isSome then .error .buffer
    else if ∃ b < sb.gdtSizeBlocks, (sb.gdtBlock fs b).isNone then .ok none
    else if ∃ g < sb.groupCount, table < sizeofGroupDesc * g + sb.descSize then .error .table
    else if !env.node then .ok none
    else
      let bytes := fun i => (sb.gdtBlock fs (i / sb.blockSize)).elim 0 fun buf => buf (i % sb.blockSize)
      .ok (some { fs with
        inodeSize := sb.sInodeSize
        inodesPerGroup := sb.sInodesPerGroup
        groupCount := sb.groupCount
        gdtBytes := table
        gdt := fun g => load bytes (g * sb.descSize + 40) 4 <<< 32 ||| load bytes (g * sb.descSize + 8) 4
        groups })
  | _, _ => .ok none

def ext4Mount (env : Env) : Except Fault (Option Mount) :=
  match env.superblock with
  | none => .ok none
  | some sb =>
    if !env.slot ∨ sb.sMagic ≠ ext4SuperMagic then .ok none
    else if sb.sLogBlockSize ≥ 32 then .error .shift
    else if groups : sb.sInodesPerGroup = 0 then .error .divide
    else if sized : sb.blockSize = 0 then .error .divide
    else readGroups env sb groups ⟨sb.blockSize,env.disk,true,Nat.pos_of_ne_zero sized⟩

/-- The block of an inode, and its place there. -/
def ext4InodeTableBlock (m : Mount) (ino : Nat) : Except Fault (Nat × Nat) :=
  let group := (ino - 1) / m.inodesPerGroup
  let place := (ino - 1) % m.inodesPerGroup * m.inodeSize % 2^32
  if m.inodesPerGroup = 0 then .error .divide
  else if group ≥ m.groupCount then .ok (0,0)
  else if m.gdtBytes < sizeofGroupDesc * (group + 1) then .error .table
  else if m.blockSize = 0 then .error .divide
  else .ok ((m.gdt group + place / m.blockSize) % 2^64,place % m.blockSize)

def ext4ReadInode (m : Mount) (memory : Grant) (ino : Nat) : Except Fault (Option (Nat → UInt8)) := do
  if ino = 0 ∨ !m.mounted then return none
  let (tableBlock,offsetInBlock) ← ext4InodeTableBlock m ino
  if tableBlock = 0 ∨ memory = .null then return none
  if memory = .overlapping then throw .buffer
  let some blockBuf := ext4ReadBlockRaw m.toFs tableBlock | return none
  if offsetInBlock + m.inodeSize ≤ m.blockSize then return some fun k => blockBuf (offsetInBlock + k)
  let front := m.blockSize - offsetInBlock
  return (ext4ReadBlockRaw m.toFs (tableBlock + 1)).map fun nextBuf k =>
    if k < front then blockBuf (offsetInBlock + k) else nextBuf (k - front)

/-- The table has a descriptor for the group of an inode. -/
def Tabled (groupCount inodesPerGroup bytes ino : Nat) : Prop :=
  (ino - 1) / inodesPerGroup < groupCount → sizeofGroupDesc * ((ino - 1) / inodesPerGroup + 1) ≤ bytes

/-- No lookup of an inode faults, if its buffer overlaps nothing. -/
def Mount.Robust (m : Mount) : Prop :=
  ∀ memory ≠ .overlapping, ∀ ino < 2^32, ∃ inode, ext4ReadInode m memory ino = .ok inode

theorem ext4InodeTableBlock_ok {m : Mount} {ino : Nat} :
    (∃ place, ext4InodeTableBlock m ino = .ok place) ↔ Tabled m.groupCount m.inodesPerGroup m.gdtBytes ino := by
  simp only [ext4InodeTableBlock,m.groups,Nat.ne_of_gt m.sized,if_false,Tabled]
  split
  case isTrue past => exact iff_of_true ⟨_,rfl⟩ (fun low => absurd low (Nat.not_lt.mpr past))
  case isFalse low =>
    split
    case isTrue outside =>
      exact iff_of_false nofun (fun inside => absurd (inside (Nat.lt_of_not_ge low)) (Nat.not_le.mpr outside))
    case isFalse inside => exact iff_of_true ⟨_,rfl⟩ (fun _ => Nat.le_of_not_lt inside)

theorem robust_iff {m : Mount} (mounted : m.mounted) :
    m.Robust ↔ ∀ ino < 2^32, 0 < ino → Tabled m.groupCount m.inodesPerGroup m.gdtBytes ino := by
  constructor
  · intro robust ino low named
    obtain ⟨inode,read⟩ := robust .null nofun ino low
    rw [← ext4InodeTableBlock_ok]
    cases found : ext4InodeTableBlock m ino with
    | ok place => exact ⟨place,rfl⟩
    | error fault => simp [ext4ReadInode,Nat.ne_of_gt named,mounted,found,bind,Except.bind] at read
  · intro tabled memory apart ino low
    by_cases skip : ino = 0
    · exact ⟨none,by simp [ext4ReadInode,skip,pure,Except.pure]⟩
    obtain ⟨place,found⟩ := ext4InodeTableBlock_ok.mpr (tabled ino low (Nat.pos_of_ne_zero skip))
    by_cases no : place.1 = 0 ∨ memory = .null
    · exact ⟨none,by simp [ext4ReadInode,skip,mounted,found,no,bind,Except.bind,pure,Except.pure]⟩
    have live : ¬ (ino = 0 ∨ !m.mounted) := by simp [skip,mounted]
    simp only [ext4ReadInode,live,found,no,apart,if_false,bind,Except.bind,pure,Except.pure]
    cases ext4ReadBlockRaw m.toFs place.1 with
    | none => exact ⟨_,rfl⟩
    | some blockBuf =>
      by_cases inside : place.2 + m.inodeSize ≤ m.blockSize
      · exact ⟨_,if_pos inside⟩
      · exact ⟨_,if_neg inside⟩

/-- What `kmalloc` returns is enough for the blocks that are read and for the descriptors that are used. -/
def Env.Roomy (env : Env) (sb : Superblock) (fs : Fs) : Prop :=
  ∀ table ∈ env.kmalloc sb.gdtTotalBytes, ∀ buffer ∈ env.kmalloc (sb.blockSize * sb.gdtSizeBlocks % 2^32),
    (∀ b < sb.gdtSizeBlocks, (∀ before < b, (sb.gdtBlock fs before).isSome) → sb.blockSize * (b + 1) ≤ buffer) ∧
    ((∀ b < sb.gdtSizeBlocks, (sb.gdtBlock fs b).isSome) →
      (∀ g < sb.groupCount, sizeofGroupDesc * g + sb.descSize ≤ table) ∧
      (env.node → ∀ ino < 2^32, 0 < ino → Tabled sb.groupCount sb.sInodesPerGroup table ino))

theorem readGroups_robust (env : Env) (sb : Superblock) (groups : sb.sInodesPerGroup ≠ 0) {fs : Fs} (mounted : fs.mounted) :
    (∃ mount, readGroups env sb groups fs = .ok mount ∧ ∀ m ∈ mount, m.Robust) ↔ env.Roomy sb fs := by
  unfold readGroups Env.Roomy
  cases env.kmalloc sb.gdtTotalBytes with
  | none => exact iff_of_true ⟨none,rfl,nofun⟩ nofun
  | some table =>
    cases env.kmalloc (sb.blockSize * sb.gdtSizeBlocks % 2^32) with
    | none => exact iff_of_true ⟨none,rfl,nofun⟩ nofun
    | some buffer =>
      simp only [Option.mem_some,forall_eq']
      split
      case isTrue past =>
        obtain ⟨b,low,small,before⟩ := past
        exact iff_of_false nofun (fun room => Nat.not_lt.mpr (room.1 b low before) small)
      case isFalse fits =>
        have fits : ∀ b < sb.gdtSizeBlocks, (∀ before < b, (sb.gdtBlock fs before).isSome) → sb.blockSize * (b + 1) ≤ buffer :=
          fun b low before => Nat.le_of_not_lt fun small => fits ⟨b,low,small,before⟩
        split
        case isTrue unread =>
          obtain ⟨b,low,unread⟩ := unread
          refine iff_of_true ⟨none,rfl,nofun⟩ ⟨fits,fun read => ?_⟩
          have some := read b low
          simp [Option.isNone_iff_eq_none.mp unread] at some
        case isFalse read =>
          have read : ∀ b < sb.gdtSizeBlocks, (sb.gdtBlock fs b).isSome := by
            intro b low
            rw [← Option.not_isNone,Bool.not_eq_true']
            exact eq_false_of_ne_true fun unread => read ⟨b,low,unread⟩
          split
          case isTrue past =>
            obtain ⟨g,low,small⟩ := past
            exact iff_of_false nofun (fun room => Nat.not_lt.mpr ((room.2 read).1 g low) small)
          case isFalse inside =>
            have inside : ∀ g < sb.groupCount, sizeofGroupDesc * g + sb.descSize ≤ table :=
              fun g low => Nat.le_of_not_lt fun small => inside ⟨g,low,small⟩
            cases env.node with
            | false => exact iff_of_true ⟨none,rfl,nofun⟩ ⟨fits,fun _ => ⟨inside,nofun⟩⟩
            | true =>
              constructor
              · rintro ⟨mount,made,robust⟩
                cases made
                exact ⟨fits,fun _ => ⟨inside,fun _ => (robust_iff mounted).mp (robust _ rfl)⟩⟩
              · intro room
                refine ⟨_,rfl,?_⟩
                rintro m ⟨⟩
                exact (robust_iff mounted).mpr ((room.2 read).2 rfl)

theorem Superblock.sized_iff {sb : Superblock} (low : sb.sLogBlockSize < 32) : sb.blockSize ≠ 0 ↔ sb.sLogBlockSize ≤ 21 := by
  unfold Superblock.blockSize
  generalize sb.sLogBlockSize = log at low
  revert log
  decide

/-- A superblock that is used has a block size that fits in 32 bits and inodes in its groups, and there is room
    for its descriptors. -/
def Env.Sound (env : Env) : Prop :=
  ∀ sb ∈ env.superblock, env.slot → sb.sMagic = ext4SuperMagic → sb.sLogBlockSize ≤ 21 ∧ sb.sInodesPerGroup ≠ 0 ∧
    ∀ sized : 0 < sb.blockSize, env.Roomy sb ⟨sb.blockSize,env.disk,true,sized⟩

/-- A mount and the lookups after it stay inside what was allocated, and divide and shift as they may, exactly if the image
    and the allocations are sound. -/
theorem ext4_mount_robust (env : Env) : (∃ mount, ext4Mount env = .ok mount ∧ ∀ m ∈ mount, m.Robust) ↔ env.Sound := by
  unfold ext4Mount Env.Sound
  cases env.superblock with
  | none => exact iff_of_true ⟨none,rfl,nofun⟩ nofun
  | some sb =>
    simp only [Option.mem_some,forall_eq']
    split
    case isTrue skipped =>
      refine iff_of_true ⟨none,rfl,nofun⟩ (fun slot magic => ?_)
      simp [slot,magic] at skipped
    case isFalse used =>
      have used : env.slot ∧ sb.sMagic = ext4SuperMagic := by simpa using used
      simp only [used.1,used.2,true_imp_iff]
      split
      case isTrue large => exact iff_of_false nofun (fun plain => by omega)
      case isFalse low =>
        split
        case isTrue empty => exact iff_of_false nofun (fun plain => plain.2.1 empty)
        case isFalse groups =>
          have fits := Superblock.sized_iff (Nat.lt_of_not_ge low)
          split
          case isTrue zero => exact iff_of_false nofun (fun plain => fits.mpr plain.1 zero)
          case isFalse sized =>
            rw [readGroups_robust env sb groups rfl]
            exact ⟨fun room => ⟨fits.mp sized,groups,fun _ => room⟩,fun plain => plain.2.2 _⟩

def blank (log perGroup incompat : UInt8) : Env where
  disk n := some fun k => if n ≠ 2 then 0 else
    match k with
    | 0 => 16
    | 24 => log
    | 40 => perGroup
    | 56 => 0x53
    | 57 => 0xEF
    | 96 => incompat
    | _ => 0
  kmalloc size := if size = 0 then none else some (min size (2^23))
  slot := true
  node := true

/-- A group without inodes, a block size that does not fit, and descriptors of 32 bytes. -/
theorem ext4_mount_faults : ext4Mount (blank 2 0 0x80) = .error .divide ∧ ext4Mount (blank 22 8 0x80) = .error .divide ∧
    ext4Mount (blank 32 8 0x80) = .error .shift ∧ ext4Mount (blank 2 8 0) = .error .table :=
  ⟨rfl,rfl,rfl,rfl⟩

end Kenux.Ext4
