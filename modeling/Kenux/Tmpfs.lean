import Mathlib.Data.BitVec
import Kenux.Runs

/-!
The contents of a file in `tmpfs.c`, one block whose capacity `tmpfs_write` doubles, beside
what a file is for, a sparse byte array (`Sparse`). Three things keep the code from being
one: the bytes of a gap are what `memory_alloc` left there, offset plus size wraps, and the
doubling wraps to 0 and never ends (`tmpfs_gap_wrap_and_loop`). `tmpfs_run_sparse` proves
that every call returns and every read gives what the sparse array gives, for all runs of
calls that meet none of the three and whose reads are short enough for their `int` result.
-/
namespace Kenux.Tmpfs
open Kenux.Runs

abbrev Byte := BitVec 8

/-- `tmpfs_data_t`, and the `size` of the node; `data` has `capacity` bytes. -/
structure TmpfsData where
  data : Option (Nat → Byte)
  size : BitVec 64
  capacity : BitVec 64
  nodeSize : BitVec 64

def newFile : TmpfsData := ⟨none,0,0,0⟩

def memcpy (dst : Nat → Byte) (pos : Nat) (src : Nat → Byte) (n : Nat) : Nat → Byte :=
  fun i => if pos ≤ i ∧ i < pos + n then src (i - pos) else dst i

/-- What a read returned: its result and the bytes in the caller's buffer. -/
structure Reply where
  result : Int
  bytes : List Byte
  deriving DecidableEq

def toInt (size : BitVec 64) : Int := (size.setWidth 32).toInt

/-- A copy that leaves the block has no result. -/
def tmpfsRead (offset size : BitVec 64) (d : TmpfsData) : Option Reply :=
  match d.data with
  | none => some ⟨0,[]⟩
  | some data =>
    if offset ≥ d.size then some ⟨0,[]⟩
    else
      let n := if offset + size > d.size then d.size - offset else size
      if offset.toNat + n.toNat ≤ d.capacity.toNat then
        some ⟨toInt n,(List.range n.toNat).map (fun i => data (offset.toNat + i))⟩
      else none

def grow (need : BitVec 64) : Nat → BitVec 64 → Option (BitVec 64)
  | 0, _ => none
  | fuel+1, newCap => if newCap < need then grow need fuel (newCap * 2) else some newCap

/-- The end of `tmpfs_write`: the copy and the new size. -/
def put (offset : BitVec 64) (buf : Nat → Byte) (size : BitVec 64) (d : TmpfsData) : Option (Int × TmpfsData) :=
  let newSize := if offset + size > d.size then offset + size else d.size
  match d.data with
  | some data =>
    if size = 0 ∨ offset.toNat + size.toNat ≤ d.capacity.toNat then
      some (toInt size,{ d with data := some (memcpy data offset.toNat buf size.toNat), size := newSize, nodeSize := newSize })
    else none
  | none => if size = 0 then some (toInt size,{ d with size := newSize, nodeSize := newSize }) else none

/-- The block is full and a larger one is asked for. -/
def Full (offset size : BitVec 64) (d : TmpfsData) : Prop := offset + size > d.capacity

instance (offset size : BitVec 64) (d : TmpfsData) : Decidable (Full offset size d) := inferInstanceAs (Decidable (_ > _))

/-- The loop that finds the new capacity never ends when it has not ended after 65 tests (`grow_none`). `fresh` is
    what `memory_alloc` returns if it is called, with what is in the block. -/
def tmpfsWrite (offset : BitVec 64) (buf : Nat → Byte) (size : BitVec 64) (fresh : Option (Nat → Byte)) (d : TmpfsData) :
    Option (Int × TmpfsData) :=
  if Full offset size d then
    (grow (offset + size) 65 (if d.capacity ≠ 0 then d.capacity * 2 else 4096)).bind (fun newCap =>
      match fresh with
      | none => some (-1,d)
      | some block =>
        match d.data with
        | none => put offset buf size { d with data := some block, capacity := newCap }
        | some data =>
          if d.size ≤ d.capacity ∧ d.size ≤ newCap then
            put offset buf size { d with data := some (memcpy block 0 data d.size.toNat), capacity := newCap }
          else none)
  else put offset buf size d

/-- A file: its size, and a byte at each position, 0 where nothing was written. -/
structure Sparse where
  size : Nat
  byte : Nat → Byte

def Sparse.empty : Sparse := ⟨0,fun _ => 0⟩

def Sparse.write (file : Sparse) (offset : Nat) (buf : Nat → Byte) (size : Nat) : Sparse where
  size := max file.size (offset + size)
  byte i := if offset ≤ i ∧ i < offset + size then buf (i - offset) else file.byte i

def Sparse.read (file : Sparse) (offset size : Nat) : Reply :=
  let n := min size (file.size - offset)
  ⟨n,(List.range n).map (fun i => file.byte (offset + i))⟩

/-- The code's file beside the sparse array that has seen the same writes, those excepted whose
    allocation failed, and what the reads got from each. -/
structure State where
  d : TmpfsData
  file : Sparse
  reads : List Reply
  wanted : List Reply

def start : State := ⟨newFile,.empty,[],[]⟩

inductive Request where
  | read (offset size : BitVec 64)
  | write (offset : BitVec 64) (buf : Nat → Byte) (size : BitVec 64) (fresh : Option (Nat → Byte))

def step (s : State) : Request → Option State
  | .read offset size => (tmpfsRead offset size s.d).map (fun reply =>
      { s with reads := s.reads ++ [reply], wanted := s.wanted ++ [s.file.read offset.toNat size.toNat] })
  | .write offset buf size fresh => (tmpfsWrite offset buf size fresh s.d).map (fun out =>
      { s with
        d := out.2
        file := if Full offset size s.d ∧ fresh = none then s.file else s.file.write offset.toNat buf size.toNat })

/-- The byte that the block for the write has at a position that is neither in the file nor written. -/
def gapByte (offset size : BitVec 64) (fresh : Option (Nat → Byte)) (d : TmpfsData) (i : Nat) : Byte :=
  ((if Full offset size d then fresh else d.data).getD (fun _ => 0)) i

/-- A read begins behind the end, or its end does not wrap and its length fits an `int`. A write ends at
    2^63 or before, and leaves no gap in the file but one with zeros in it. -/
def Meets (s : State) : Request → Prop
  | .read offset size => offset ≥ s.d.size ∨
      (offset.toNat + size.toNat < 2^64 ∧ min size.toNat (s.d.size.toNat - offset.toNat) < 2^31)
  | .write offset _ size fresh => offset.toNat + size.toNat ≤ 2^63 ∧
      ∀ i < offset.toNat, s.d.size.toNat ≤ i → gapByte offset size fresh s.d i = 0

/-- The reads got what the sparse array gives, and the node has its size. -/
structure Sound (s : State) : Prop where
  reads : s.reads = s.wanted
  size : s.d.nodeSize.toNat = s.file.size

variable {need cap : BitVec 64} {n i fuel k : Nat} {dst src : Nat → Byte}

/-- The loop has not ended after so many tests when every one of them held. -/
theorem grow_eq_none : grow need fuel cap = none ↔ ∀ j < fuel, cap * 2^j < need := by
  induction fuel generalizing cap with
  | zero => simp [grow]
  | succ fuel ih =>
    have shift : ∀ j, cap * 2 * 2^j = cap * 2^(j+1) := fun j => by
      rw [BitVec.mul_assoc,BitVec.pow_succ,BitVec.mul_comm 2]
    rw [grow]
    split
    case isTrue less =>
      rw [ih]
      constructor
      · rintro all (_ | j) below
        · simpa using less
        · rw [←shift]
          exact all j (by omega)
      · intro all j below
        rw [shift]
        exact all (j+1) (by omega)
    case isFalse done =>
      constructor
      · nofun
      · intro all
        refine absurd ?_ done
        simpa using all 0 (by omega)

/-- A loop that has not ended after 65 tests never ends: the capacity is 0 then. -/
theorem grow_none (stuck : grow need 65 cap = none) (fuel : Nat) : grow need fuel cap = none := by
  rw [grow_eq_none] at stuck ⊢
  intro j _
  rcases Nat.lt_or_ge j 65 with few | many
  · exact stuck j few
  · have wrapped : (2 : BitVec 64)^64 = 0 := by decide +kernel
    have zero : cap * 2^j = cap * 2^64 := by
      rw [show j = 64 + (j - 64) by omega,pow_add,wrapped,zero_mul]
    rw [zero]
    exact stuck 64 (by omega)

private theorem double_toNat (power : cap.toNat = 2^k) (below : k < 63) : (cap * 2).toNat = 2^(k+1) := by
  have bound : 2^(k+1) ≤ 2^63 := Nat.pow_le_pow_right (by omega) below
  have product : (cap * 2).toNat = cap.toNat * 2 % 2^64 := BitVec.toNat_mul ..
  rw [product,power]
  exact Nat.mod_eq_of_lt (by omega)

theorem grow_spec (fits : need.toNat ≤ 2^63) (below : k ≤ 63) (enough : 63 - k < fuel) (power : cap.toNat = 2^k) :
    ∃ newCap n, grow need fuel cap = some newCap ∧ newCap.toNat = 2^n ∧ k ≤ n ∧ n ≤ 63 ∧ need.toNat ≤ 2^n := by
  induction fuel generalizing k cap with
  | zero => omega
  | succ fuel ih =>
    rw [grow]
    split
    case isTrue less =>
      have shorter : k < 63 := by
        refine (Nat.pow_lt_pow_iff_right (a := 2) (by omega)).mp ?_
        rw [←power]
        exact Nat.lt_of_lt_of_le less fits
      obtain ⟨newCap,n,found,is,more,most,enough⟩ := ih shorter (by omega) (double_toNat power shorter)
      exact ⟨newCap,n,found,is,by omega,most,enough⟩
    case isFalse done =>
      refine ⟨cap,k,rfl,power,Nat.le_refl k,below,?_⟩
      rw [←power]
      exact Nat.le_of_not_lt done

/-- The block of a file: its capacity is a power of two, and it has the file's bytes. -/
structure Block (data : Nat → Byte) (capacity : BitVec 64) (file : Sparse) : Prop where
  power : ∃ k ≤ 63, capacity.toNat = 2^k
  room : file.size ≤ capacity.toNat
  bytes : ∀ i < file.size, data i = file.byte i

/-- The code's file is the sparse array. -/
structure Rep (d : TmpfsData) (file : Sparse) : Prop where
  size : d.size.toNat = file.size
  node : d.nodeSize = d.size
  zero : ∀ i, file.size ≤ i → file.byte i = 0
  block : (d.data = none ∧ d.capacity = 0 ∧ file.size = 0) ∨ ∃ data, d.data = some data ∧ Block data d.capacity file

variable {d : TmpfsData} {file : Sparse} {offset size : BitVec 64} {buf : Nat → Byte}

private theorem newFile_rep : Rep newFile .empty where
  size := rfl
  node := rfl
  zero _ _ := rfl
  block := .inl ⟨rfl,rfl,rfl⟩

private theorem toInt_of_lt {n : BitVec 64} (small : n.toNat < 2^31) : toInt n = n.toNat := by
  have same : (n.setWidth 32).toNat = n.toNat := by
    exact Nat.mod_eq_of_lt (by omega)
  rw [toInt,BitVec.toInt_eq_toNat_of_lt (by omega),same]

theorem length_toNat (inside : offset < d.size) (short : offset.toNat + size.toNat < 2^64) :
    (if offset + size > d.size then d.size - offset else size).toNat = min size.toNat (d.size.toNat - offset.toNat) := by
  have sum : (offset + size).toNat = offset.toNat + size.toNat := BitVec.toNat_add_of_lt short
  have below : offset.toNat < d.size.toNat := inside
  split
  case isTrue past =>
    have past : d.size.toNat < (offset + size).toNat := past
    rw [BitVec.toNat_sub_of_le (Nat.le_of_lt below)]
    omega
  case isFalse within =>
    have within : ¬ d.size.toNat < (offset + size).toNat := within
    omega

theorem put_spec {data : Nat → Byte} (sizeIs : d.size.toNat = file.size) (zero : ∀ i, file.size ≤ i → file.byte i = 0)
    (dataIs : d.data = some data) (block : Block data d.capacity file) (fits : offset.toNat + size.toNat ≤ d.capacity.toNat)
    (gap : ∀ i < offset.toNat, file.size ≤ i → data i = 0) :
    ∃ value t, put offset buf size d = some (value,t) ∧ Rep t (file.write offset.toNat buf size.toNat) := by
  obtain ⟨k,high,power⟩ := block.power
  have sum : (offset + size).toNat = offset.toNat + size.toNat := BitVec.toNat_add_of_lt (by omega)
  have room := block.room
  have newSize : (if offset + size > d.size then offset + size else d.size).toNat = max file.size (offset.toNat + size.toNat) := by
    split
    case isTrue more =>
      have more : d.size.toNat < (offset + size).toNat := more
      omega
    case isFalse less =>
      have less : ¬ d.size.toNat < (offset + size).toNat := less
      omega
  rw [put,dataIs]
  dsimp only
  rw [if_pos (.inr fits)]
  refine ⟨_,_,rfl,newSize,rfl,fun i past => ?_,.inr ⟨_,rfl,⟨k,high,power⟩,?_,fun i below => ?_⟩⟩
  · have past : max file.size (offset.toNat + size.toNat) ≤ i := past
    exact (if_neg (by omega)).trans (zero i (by omega))
  · exact Nat.max_le.mpr ⟨room,fits⟩
  · have below : i < max file.size (offset.toNat + size.toNat) := below
    show (if _ then _ else _) = (if _ then _ else _)
    split
    case isTrue => rfl
    case isFalse unwritten =>
      rcases Nat.lt_or_ge i file.size with old | new
      · exact block.bytes i old
      · rw [gap i (by omega) new,zero i new]

private theorem memcpy_of_ge (past : n ≤ i) : memcpy dst 0 src n i = dst i :=
  if_neg (by omega)

private theorem memcpy_of_lt (inside : i < n) : memcpy dst 0 src n i = src i :=
  if_pos (by omega)

section
variable (rep : Rep d file)
include rep

theorem Rep.read (short : offset ≥ d.size ∨
    (offset.toNat + size.toNat < 2^64 ∧ min size.toNat (d.size.toNat - offset.toNat) < 2^31)) :
    tmpfsRead offset size d = some (file.read offset.toNat size.toNat) := by
  have sizeIs := rep.size
  have nothing : file.size ≤ offset.toNat → file.read offset.toNat size.toNat = ⟨0,[]⟩ := by
    intro past
    rw [Sparse.read,Nat.sub_eq_zero_of_le past]
    simp
  rw [tmpfsRead]
  rcases rep.block with ⟨none,_,empty⟩ | ⟨data,dataIs,block⟩
  · rw [none,nothing (by omega)]
  rw [dataIs]
  by_cases past : offset ≥ d.size
  · have : d.size.toNat ≤ offset.toNat := past
    rw [nothing (by omega)]
    exact if_pos past
  obtain ⟨noWrap,small⟩ := short.resolve_left past
  have inside : offset < d.size := BitVec.not_le.mp past
  have length := length_toNat inside noWrap
  have below : offset.toNat < d.size.toNat := inside
  have room := block.room
  dsimp only
  rw [if_neg past,if_pos (by rw [length]; omega),toInt_of_lt (by rw [length]; exact small),length,sizeIs]
  congr 2
  refine List.map_congr_left (fun i member => ?_)
  have := List.mem_range.mp member
  exact block.bytes _ (by omega)

theorem put_nothing (absent : d.data = none) (capacity : d.capacity = 0) (empty : file.size = 0)
    (start : offset = 0) (nothing : size = 0) :
    ∃ value t, put offset buf size d = some (value,t) ∧ Rep t (file.write offset.toNat buf size.toNat) := by
  subst start nothing
  have same : d.size = 0 := BitVec.eq_of_toNat_eq (rep.size.trans empty)
  rw [put,absent,same]
  refine ⟨_,_,rfl,?_,rfl,fun i _ => ?_,.inl ⟨rfl,capacity,?_⟩⟩
  · simp [Sparse.write,empty]
  · simp [Sparse.write,rep.zero i (by omega)]
  · simp [Sparse.write,empty]

theorem Rep.grow (fits : offset.toNat + size.toNat ≤ 2^63) (full : Full offset size d) :
    ∃ newCap, grow (offset + size) 65 (if d.capacity ≠ 0 then d.capacity * 2 else 4096) = some newCap ∧
      (∃ k ≤ 63, newCap.toNat = 2^k) ∧ offset.toNat + size.toNat ≤ newCap.toNat ∧ d.capacity.toNat ≤ newCap.toNat := by
  have sum : (offset + size).toNat = offset.toNat + size.toNat := BitVec.toNat_add_of_lt (by omega)
  have more : d.capacity.toNat < (offset + size).toNat := full
  have found : ∃ k ≤ 63, (if d.capacity ≠ 0 then d.capacity * 2 else 4096).toNat = 2^k ∧ d.capacity.toNat ≤ 2^k := by
    rcases rep.block with ⟨_,zero,_⟩ | ⟨data,_,block⟩
    · refine ⟨12,by omega,?_,?_⟩ <;> simp [zero]
    · obtain ⟨k,high,power⟩ := block.power
      have positive : 0 < 2^k := Nat.two_pow_pos k
      have shorter : k < 63 := by
        refine (Nat.pow_lt_pow_iff_right (a := 2) (by omega)).mp ?_
        omega
      have some : d.capacity ≠ 0 := by
        intro zero
        rw [zero] at power
        exact absurd power (Nat.ne_of_lt positive)
      refine ⟨k+1,shorter,?_,by rw [Nat.pow_succ]; omega⟩
      rw [if_pos some,double_toNat power (by omega)]
  obtain ⟨k,high,power,least⟩ := found
  obtain ⟨newCap,n,grown,is,longer,most,enough⟩ := grow_spec (show (offset + size).toNat ≤ 2^63 by omega) high (by omega : 63 - k < 65) power
  exact ⟨newCap,grown,⟨n,most,is⟩,by omega,by omega⟩

theorem Rep.write {fresh : Option (Nat → Byte)} (fits : offset.toNat + size.toNat ≤ 2^63)
    (gap : ∀ i < offset.toNat, d.size.toNat ≤ i → gapByte offset size fresh d i = 0) :
    ∃ value t, tmpfsWrite offset buf size fresh d = some (value,t) ∧
      Rep t (if Full offset size d ∧ fresh = none then file else file.write offset.toNat buf size.toNat) := by
  have sum : (offset + size).toNat = offset.toNat + size.toNat := BitVec.toNat_add_of_lt (by omega)
  rw [tmpfsWrite]
  rw [rep.size] at gap
  by_cases full : Full offset size d
  · obtain ⟨newCap,grown,power,enough,larger⟩ := rep.grow fits full
    rw [if_pos full,grown,Option.bind_some]
    cases fresh with
    | none =>
      rw [if_pos ⟨full,rfl⟩]
      exact ⟨_,_,rfl,rep⟩
    | some block =>
      have zeros : ∀ i < offset.toNat, file.size ≤ i → block i = 0 := by
        intro i below past
        have here := gap i below past
        rwa [gapByte,if_pos full] at here
      have sizeIs := rep.size
      rw [if_neg nofun]
      rcases rep.block with ⟨none,_,empty⟩ | ⟨data,dataIs,old⟩
      · rw [none]
        have holds : Block block newCap file := ⟨power,by omega,fun i below => by omega⟩
        exact put_spec sizeIs rep.zero rfl holds enough zeros
      · have room := old.room
        have copied : d.size ≤ d.capacity ∧ d.size ≤ newCap := by
          constructor
          · show d.size.toNat ≤ d.capacity.toNat
            omega
          · show d.size.toNat ≤ newCap.toNat
            omega
        have holds : Block (memcpy block 0 data d.size.toNat) newCap file :=
          ⟨power,by omega,fun i below => (memcpy_of_lt (by omega)).trans (old.bytes i below)⟩
        rw [dataIs]
        dsimp only
        rw [if_pos copied]
        refine put_spec sizeIs rep.zero rfl holds enough (fun i below past => ?_)
        exact (memcpy_of_ge (by omega)).trans (zeros i below past)
  · have less : ¬ d.capacity.toNat < (offset + size).toNat := full
    rw [if_neg full,if_neg (fun both => full both.1)]
    rcases rep.block with ⟨none,zero,empty⟩ | ⟨data,dataIs,block⟩
    · rw [zero] at less
      have nothing : offset.toNat + size.toNat = 0 := sum.symm.trans (Nat.eq_zero_of_not_pos less)
      exact put_nothing rep none zero empty (BitVec.eq_of_toNat_eq (Nat.eq_zero_of_add_eq_zero_right nothing))
        (BitVec.eq_of_toNat_eq (Nat.eq_zero_of_add_eq_zero_left nothing))
    · refine put_spec rep.size rep.zero dataIs block (by omega) (fun i below past => ?_)
      have here := gap i below past
      rwa [gapByte,if_neg full,dataIs] at here

end

theorem inv_step {s : State} (request : Request) (inv : Rep s.d s.file ∧ s.reads = s.wanted) (meets : Meets s request) :
    ∃ t, step s request = some t ∧ Rep t.d t.file ∧ t.reads = t.wanted := by
  obtain ⟨rep,same⟩ := inv
  cases request with
  | read offset size =>
    rw [step,rep.read meets]
    exact ⟨_,rfl,rep,by rw [same]⟩
  | write offset buf size fresh =>
    obtain ⟨fits,gap⟩ := meets
    obtain ⟨value,d,written,after⟩ := rep.write fits gap
    rw [step,written]
    exact ⟨_,rfl,after,same⟩

/-- In every run that meets the condition each call ends, and reads give what a sparse array gives. -/
theorem tmpfs_run_sparse (requests : List Request) (guarded : Guarded step Meets start requests) :
    ∃ s, run step start requests = some s ∧ Sound s := by
  obtain ⟨s,ran,rep,same⟩ := run_invariant (fun s request inv meets => inv_step request inv meets) requests start
    ⟨newFile_rep,rfl⟩ guarded
  exact ⟨s,ran,same,by rw [rep.node,rep.size]⟩

instance (s : State) : ∀ request, Decidable (Meets s request)
  | .read .. => inferInstanceAs (Decidable (_ ∨ _))
  | .write .. => inferInstanceAs (Decidable (_ ∧ _))

def someRun : List Request :=
  [.write 0 (fun _ => 7) 1 (some (fun _ => 0)),.write 3 (fun _ => 9) 2 none,.write 5 (fun _ => 1) 5000 none,.read 0 100,.read 4 1,
    .read 5 (BitVec.allOnes 64)]

theorem tmpfs_run_sparse_of_gap : ∃ s, run step start someRun = some s ∧ Sound s :=
  tmpfs_run_sparse someRun (by decide +kernel)

example : (run step start someRun).map State.reads = some [⟨5,[7,0,0,9,9]⟩,⟨1,[9]⟩,⟨0,[]⟩] := by decide +kernel

def gap : List Request := [.write 1 (fun _ => 7) 1 (some (fun _ => 42)),.read 0 1]

/-- The byte at position 0 was never written and is not 0. A write of one byte at 2^64 - 1 finds that it ends at 0 and
    leaves the block. A write that ends behind 2^63 never finds a capacity. -/
theorem tmpfs_gap_wrap_and_loop :
    (run step start gap).map (fun s => (s.reads,s.wanted)) = some ([⟨1,[42]⟩],[⟨1,[0]⟩]) ∧
      (run step start [.write (BitVec.allOnes 64) (fun _ => 7) 1 (some (fun _ => 0))]).isNone ∧
      (run step start [.write (2^63) (fun _ => 7) 1 (some (fun _ => 0))]).isNone ∧
      (grow (2^63 + 1) 65 4096).isNone := by
  decide +kernel

end Kenux.Tmpfs
