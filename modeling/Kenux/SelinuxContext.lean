import Kenux.Runs

/-!
The security contexts of `selinux.c`: their text, and the numbers (SIDs) they get.
`selinux_context_to_string` reports success after it left out a level that does not fit
(`context_level_dropped`); otherwise what it reports reads back as the same context
(`context_round_trip`). The table is loaded with the context of the kernel twice and with
thirteen empty ones, and the later copies are never found again (`sid_table_repeats`). All
other numbers and their contexts belong together in every run (`sid_table_run`).
-/
namespace Kenux.SelinuxContext
open Kenux.Runs

def fieldMax : Nat := 64
def sidMax : Nat := 4096
def colon : UInt8 := 58

/-- The fields, each the bytes before its NUL, or a whole array without one: nothing reads
    the bytes behind, and `strncmp` over the array compares just these. -/
structure Context where
  user : List UInt8
  role : List UInt8
  type : List UInt8
  level : List UInt8
  deriving DecidableEq, Repr

/-! ### The text of a context -/

/-- The value returned, and the bytes written, one behind the other from the start of `buf`. -/
def selinuxContextToString (ctx : Context) (size : Nat) : Int × List UInt8 :=
  if size = 0 then (-1,[])
  else if ctx.user.length + 3 > size then (-1,[])
  else
    let buf := ctx.user ++ [colon]
    if buf.length + ctx.role.length + 2 > size then (-1,buf)
    else
      let buf := buf ++ (ctx.role ++ [colon])
      if buf.length + ctx.type.length + 2 > size then (-1,buf)
      else
        let buf := buf ++ (ctx.type ++ [colon])
        if buf.length + ctx.level.length + 1 > size then (buf.length,buf ++ [0])
        else ((buf ++ ctx.level).length,buf ++ ctx.level ++ [0])

/-- The bytes up to a colon or the end of the string, and those behind the colon. -/
def nextField (p : List UInt8) : List UInt8 × List UInt8 :=
  (p.takeWhile (· ≠ colon),(p.dropWhile (· ≠ colon)).drop 1)

/-- `selinux_parse_context` of the string with these bytes before its NUL. -/
def selinuxParseContext (str : List UInt8) : Option Context :=
  let (user,p) := nextField str
  if user.length ≥ fieldMax then none
  else
    let (role,p) := nextField p
    if role.length ≥ fieldMax then none
    else
      let (type,p) := nextField p
      if type.length ≥ fieldMax then none else some ⟨user,role,type,p.take (fieldMax - 1)⟩

/-- The fields are terminated strings, and only the level may contain a colon. -/
structure Plain (ctx : Context) : Prop where
  colons : colon ∉ ctx.user ∧ colon ∉ ctx.role ∧ colon ∉ ctx.type
  strings : ∀ f ∈ [ctx.user,ctx.role,ctx.type,ctx.level], 0 ∉ f ∧ f.length < fieldMax

theorem nextField_colon {f : List UInt8} (none : colon ∉ f) (rest : List UInt8) : nextField (f ++ colon :: rest) = (f,rest) := by
  have apart : ∀ x ∈ f, decide (x ≠ colon) = true := fun x member => decide_eq_true (ne_of_mem_of_not_mem member none)
  rw [nextField,List.takeWhile_append_of_pos apart,List.dropWhile_append_of_pos apart]
  simp

/-- The bytes of a context, with any level. -/
def Context.text (ctx : Context) (level : List UInt8) : List UInt8 :=
  ctx.user ++ colon :: (ctx.role ++ colon :: (ctx.type ++ colon :: level))

theorem parse_text {ctx : Context} (plain : Plain ctx) {level : List UInt8} (short : level.length < fieldMax) :
    selinuxParseContext (ctx.text level) = some { ctx with level } := by
  obtain ⟨⟨user,role,type⟩,strings⟩ := plain
  simp only [List.forall_mem_cons] at strings
  obtain ⟨⟨_,shortU⟩,⟨_,shortR⟩,⟨_,shortT⟩,_⟩ := strings
  have whole : level.take (fieldMax - 1) = level := List.take_of_length_le (Nat.le_sub_one_of_lt short)
  simp [Context.text,selinuxParseContext,nextField_colon user,nextField_colon role,nextField_colon type,whole,
    Nat.not_le.mpr shortU,Nat.not_le.mpr shortR,Nat.not_le.mpr shortT]

/-- The room that user, role and type take, with three colons and a NUL. -/
def Context.room (ctx : Context) : Nat := ctx.user.length + ctx.role.length + ctx.type.length + 4

private theorem toString_refused {ctx : Context} {size : Nat} (small : size < ctx.room) : (selinuxContextToString ctx size).1 = -1 := by
  rw [Context.room] at small
  rw [selinuxContextToString]
  grind

theorem toString_written {ctx : Context} {size : Nat} (room : ctx.room ≤ size) {level : List UInt8}
    (kept : level = if size < ctx.room + ctx.level.length then [] else ctx.level) :
    selinuxContextToString ctx size = ⟨(ctx.text level).length,ctx.text level ++ [0]⟩ := by
  rw [Context.room] at room kept
  rw [selinuxContextToString,Context.text]
  grind

/-- A text that is reported as written is terminated, inside the buffer, and reads back as the context, exactly if
    the level is empty, or the three other fields do not fit either, or all of it fits. -/
theorem context_round_trip (ctx : Context) (size : Nat) (plain : Plain ctx) :
    (0 ≤ (selinuxContextToString ctx size).1 → ∃ text, (selinuxContextToString ctx size).2 = text ++ [0] ∧
      0 ∉ text ∧ text.length < size ∧ selinuxParseContext text = some ctx) ↔
    ctx.level = [] ∨ size < ctx.room ∨ ctx.room + ctx.level.length ≤ size := by
  obtain ⟨⟨nulU,_⟩,⟨nulR,_⟩,⟨nulT,_⟩,⟨nulL,shortL⟩,_⟩ := by simpa only [List.forall_mem_cons] using plain.strings
  by_cases small : size < ctx.room
  · simp [toString_refused small,small]
  · have room := Nat.le_of_not_lt small
    constructor
    · intro back
      by_contra! cut
      rw [toString_written room (if_pos cut.2.2).symm] at back
      obtain ⟨text,same,_,_,read⟩ := back (Int.natCast_nonneg _)
      rw [← List.append_cancel_right same,parse_text plain (by decide)] at read
      exact cut.1 (congrArg Context.level (Option.some.inj read)).symm
    · intro fits _
      have whole : ctx.level = [] ∨ ctx.room + ctx.level.length ≤ size := fits.imp_right (·.resolve_left small)
      have kept : ctx.level = if size < ctx.room + ctx.level.length then [] else ctx.level := by
        rcases whole with empty | large
        · simp [empty]
        · rw [if_neg (Nat.not_lt.mpr large)]
      rw [toString_written room kept]
      refine ⟨_,rfl,?_,?_,parse_text plain shortL⟩
      · have other : (0 : UInt8) ≠ colon := by decide
        simp [Context.text,nulU,nulR,nulT,nulL,other]
      · simp only [Context.text,Context.room,List.length_append,List.length_cons] at whole room ⊢
        rcases whole with empty | large
        · rw [empty,List.length_nil]
          omega
        · omega

def brief : Context := ⟨[117],[114],[116],[108]⟩

private theorem brief_plain : Plain brief := ⟨by decide,by decide⟩

theorem context_round_trip_brief : ∃ text, (selinuxContextToString brief 8).2 = text ++ [0] ∧ 0 ∉ text ∧ text.length < 8 ∧
    selinuxParseContext text = some brief :=
  (context_round_trip brief 8 brief_plain).mpr (.inr (.inr (by decide))) (by decide)

/-- One byte less: the level is left out, and six bytes are reported as written. -/
theorem context_level_dropped : Plain brief ∧ selinuxContextToString brief 7 = (6,[117,58,114,58,116,58,0]) ∧
    selinuxParseContext [117,58,114,58,116,58] = some { brief with level := [] } :=
  ⟨brief_plain,by decide,by decide⟩

/-! ### The numbers of contexts -/

def bytes (text : String) : List UInt8 := text.toList.map (fun c => UInt8.ofNat c.toNat)

def systemContext (role type : String) : Context := ⟨bytes "system_u",bytes role,bytes type,bytes "s0"⟩

def blank : Context := ⟨[],[],[],[]⟩

/-- The contexts from `contexts[1]` to the one before `next_sid`, as `selinux_sidtab_init`
    leaves them: those that it does not load are zero. -/
def selinuxSidtabInit : List Context :=
  [systemContext "system_r" "kernel_t",systemContext "object_r" "unlabeled_t",systemContext "object_r" "file_t",
    systemContext "object_r" "dir_t",blank,blank,blank,blank,blank,systemContext "system_r" "kernel_t",blank,blank,
    systemContext "object_r" "socket_t",systemContext "object_r" "tcp_socket_t",blank,blank,blank,blank,blank,blank]

section
variable (table : List Context)

def nextSid : Nat := table.length + 1

/-- The number of the context, if the call succeeds: the loop stops at the first one. -/
def selinuxContextToSid (ctx : Context) : Option Nat × List Context :=
  if ctx ∈ table.take (sidMax - 1) then (some (table.idxOf ctx + 1),table)
  else if nextSid table ≥ sidMax then (none,table)
  else (some (nextSid table),table ++ [ctx])

def selinuxSidToContext (sid : Nat) : Option Context :=
  if sid = 0 ∨ sid ≥ nextSid table ∨ sid ≥ sidMax then none else table[sid - 1]?

end

/-- The table, and the contexts that got a number, with it. -/
structure State where
  table : List Context
  given : List (Context × Nat)

def step (s : State) (ctx : Context) : Option State :=
  let made := selinuxContextToSid s.table ctx
  some ⟨made.2,made.1.toList.map (fun sid => (ctx,sid)) ++ s.given⟩

/-- The numbers loaded with a context that no smaller one has, and those given out later. -/
def Own (sid : Nat) : Prop := sid ∈ [1,2,3,4,5,13,14] ∨ 21 ≤ sid

instance (sid : Nat) : Decidable (Own sid) := inferInstanceAs (Decidable (_ ∨ _))

/-- Numbers keep their contexts, equal contexts have equal numbers, and a context leads back to its own number. -/
structure Sound (s : State) : Prop where
  stable : ∀ a ∈ s.given, selinuxSidToContext s.table a.2 = some a.1
  equal : ∀ a ∈ s.given, ∀ b ∈ s.given, a.1 = b.1 → a.2 = b.2
  back : ∀ sid ctx, Own sid → selinuxSidToContext s.table sid = some ctx → (selinuxContextToSid s.table ctx).1 = some sid

/-- What is given, and what leads back, is the first number of a context. -/
structure Inv (s : State) : Prop where
  size : s.table.length ≤ sidMax - 1
  own : ∀ i ctx, Own (i+1) → s.table[i]? = some ctx → s.table.idxOf ctx = i
  given : ∀ a ∈ s.given, a.1 ∈ s.table ∧ a.2 = s.table.idxOf a.1 + 1

theorem Inv.sound {s : State} (inv : Inv s) : Sound s where
  stable := by
    intro a member
    obtain ⟨inside,same⟩ := inv.given a member
    have below := List.idxOf_lt_length_iff.mpr inside
    have size := inv.size
    rw [selinuxSidToContext,same,if_neg (by simp only [nextSid,sidMax] at *; omega)]
    simp [List.getElem?_eq_getElem below]
  equal := by
    intro a first b second same
    rw [(inv.given a first).2,(inv.given b second).2,same]
  back := by
    intro sid ctx own found
    obtain ⟨inside,found⟩ := Option.ite_none_left_eq_some.mp found
    obtain ⟨i,rfl⟩ := Nat.exists_eq_succ_of_ne_zero (fun zero => inside (.inl zero))
    rw [selinuxContextToSid,List.take_of_length_le inv.size,if_pos (List.mem_of_getElem? found),inv.own i ctx own found]

theorem inv_step (s : State) (ctx : Context) (inv : Inv s) : ∃ t, step s ctx = some t ∧ Inv t := by
  refine ⟨_,rfl,?_⟩
  rw [selinuxContextToSid,List.take_of_length_le inv.size]
  split
  next inside => exact ⟨inv.size,inv.own,List.forall_mem_cons.mpr ⟨⟨inside,rfl⟩,inv.given⟩⟩
  next absent =>
    split
    · exact inv
    next less =>
      have new : (s.table ++ [ctx]).idxOf ctx = s.table.length := by simp [List.idxOf_append_of_notMem absent]
      refine ⟨?_,fun i other own found => ?_,?_⟩
      · simp only [List.length_append,List.length_singleton]
        exact Nat.le_sub_one_of_lt (Nat.lt_of_not_le less)
      · by_cases old : i < s.table.length
        · rw [List.getElem?_append_left old] at found
          rw [List.idxOf_append_of_mem (List.mem_of_getElem? found)]
          exact inv.own i other own found
        · rw [List.getElem?_append_right (Nat.le_of_not_lt old),List.getElem?_singleton] at found
          obtain ⟨zero,⟨⟩⟩ := Option.ite_none_right_eq_some.mp found
          rw [new]
          omega
      · refine List.forall_mem_cons.mpr ⟨⟨by simp,by rw [new]; rfl⟩,fun a member => ?_⟩
        obtain ⟨old,same⟩ := inv.given a member
        exact ⟨List.mem_append_left _ old,by rw [List.idxOf_append_of_mem old]; exact same⟩

theorem start_inv : Inv ⟨selinuxSidtabInit,[]⟩ where
  size := by decide
  own := by
    have first : ∀ i : Fin selinuxSidtabInit.length, Own (i+1) → selinuxSidtabInit.idxOf (selinuxSidtabInit.get i) = i := by
      decide +kernel
    intro i ctx own found
    obtain ⟨below,rfl⟩ := List.getElem?_eq_some_iff.mp found
    exact first ⟨i,below⟩ own
  given := nofun

/-- After the table was loaded, and any calls: a number that was returned gives its context
    back, equal contexts got equal numbers, and the context of a number leads back to it if the
    number was given out or is the first that was loaded with its context. -/
theorem sid_table_run (requests : List Context) : ∃ s, run step ⟨selinuxSidtabInit,[]⟩ requests = some s ∧ Sound s := by
  obtain ⟨s,ran,inv⟩ := run_always inv_step requests _ start_inv
  exact ⟨s,ran,inv.sound⟩

/-- The context of the processes leads to the number of the kernel, and the sixth context,
    which is empty, to the fifth. -/
theorem sid_table_repeats :
    selinuxSidToContext selinuxSidtabInit 10 = some (systemContext "system_r" "kernel_t") ∧
      (selinuxContextToSid selinuxSidtabInit (systemContext "system_r" "kernel_t")).1 = some 1 ∧
      selinuxSidToContext selinuxSidtabInit 6 = some blank ∧ (selinuxContextToSid selinuxSidtabInit blank).1 = some 5 := by
  decide +kernel

end Kenux.SelinuxContext
