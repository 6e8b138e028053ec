import Kenux.Rings
import Kenux.Runs
import Kenux.Words

/-!
The kernel log of `printk.c`: text, after a level tag, in a ring of 65536 characters with
64-bit indices, which `dmesg_read` reads and `dmesg_clear` empties. `vsnprintf_fits` shows
that no conversion writes behind the buffer of 1024 bytes. Over all runs that store fewer
than 2^64 characters, `dmesg_read` gives the beginning of the last 65536 characters that
were stored since the last `dmesg_clear` (`printk_run_logged`).
-/
namespace Kenux.Printk
open Kenux.Runs Kenux.Words

/-! ### Formatting -/

abbrev Byte : Type := BitVec 8

def chr (c : Char) : Byte := BitVec.ofNat 8 c.toNat

/-- The variable arguments, in slots of 64 bits, and the strings at addresses. A string is given by the bytes
    from its address on; behind them there is a 0. -/
structure Env where
  args : Nat → BitVec 64
  text : BitVec 64 → List Byte

section
variable (size : Nat)

def last : Nat := sub64 size 1

/-- `buf[i++] = c`, where `i` is the number of bytes written so far; `none` if it is behind the buffer. -/
def put (c : Byte) (buf : List Byte) : Option (List Byte) := if buf.length < size then some (buf ++ [c]) else none

def putIf (c : Byte) (buf : List Byte) : Option (List Byte) := if buf.length < last size then put size c buf else some buf

/-- A loop that writes characters while `i < size - 1`. -/
def putAll : List Byte → List Byte → Option (List Byte)
  | [], buf => some buf
  | c :: rest, buf => if buf.length < last size then (put size c buf).bind (putAll rest) else some buf

/-- The `do` loop over the digits, lowest first; `none` if the array `num` has no room for them. -/
def toNum : Nat → Int → Option (List Byte)
  | 0, _ => none
  | room+1, val =>
    let digit := BitVec.ofInt 8 (48 + val.tmod 10)
    if val.tdiv 10 > 0 then (toNum room (val.tdiv 10)).map (digit :: ·) else some [digit]

def putDecimal (room : Nat) (val : Int) (buf : List Byte) : Option (List Byte) :=
  (toNum room val).bind (fun num => putAll size num.reverse buf)

/-- Signed conversions; `-val` wraps. -/
def putSigned {width : Nat} (room : Nat) (val : BitVec width) (buf : List Byte) : Option (List Byte) :=
  if val.toInt < 0 then (put size (chr '-') buf).bind (putDecimal size room (-val).toInt)
  else putDecimal size room val.toInt buf

def nibble (n : Nat) : Byte := BitVec.ofNat 8 (if n < 10 then 48 + n else 97 + n - 10)

/-- Hexadecimal conversions of so many digits. -/
def putHex (digits val : Nat) (buf : List Byte) : Option (List Byte) :=
  (put size (chr '0') buf).bind (fun buf => (putIf size (chr 'x') buf).bind
    (putAll size ((List.range digits).reverse.map (fun k => nibble ((val >>> (4 * k)) &&& 0xF)))))

variable (env : Env)

def putString (str : BitVec 64) (buf : List Byte) : Option (List Byte) :=
  putAll size (if str = 0 then "(null)".toList.map chr else (env.text str).takeWhile (· ≠ 0)) buf

/-- The conversions after `%l`: the next argument and the buffer. -/
def convertLong (c : Byte) (arg : Nat) (buf : List Byte) : Option (Nat × List Byte) :=
  let val := env.args arg
  if c = chr 'u' then (putDecimal size 24 val.toNat buf).map (Prod.mk (arg + 1))
  else if c = chr 'x' then (putHex size 16 val.toNat buf).map (Prod.mk (arg + 1))
  else if c = chr 'd' then (putSigned size 24 val buf).map (Prod.mk (arg + 1))
  else ((put size (chr '%') buf).bind (fun buf => (putIf size (chr 'l') buf).bind (putIf size c))).map (Prod.mk arg)

def convert (c : Byte) (arg : Nat) (buf : List Byte) : Option (Nat × List Byte) :=
  let val := env.args arg
  let low := val.setWidth 32
  if c = chr 'd' then (putSigned size 16 low buf).map (Prod.mk (arg + 1))
  else if c = chr 'u' then (putDecimal size 16 low.toNat buf).map (Prod.mk (arg + 1))
  else if c = chr 'x' then (putHex size 8 low.toNat buf).map (Prod.mk (arg + 1))
  else if c = chr 'p' then (putHex size 16 val.toNat buf).map (Prod.mk (arg + 1))
  else if c = chr 's' then (putString size env val buf).map (Prod.mk (arg + 1))
  else if c = chr 'c' then (put size (val.setWidth 8) buf).map (Prod.mk (arg + 1))
  else if c = chr '%' then (put size (chr '%') buf).map (Prod.mk arg)
  else ((put size (chr '%') buf).bind (putIf size c)).map (Prod.mk arg)

/-- The loop of `__vsnprintf`. The format is given by the bytes from `fmt` on, behind which there is a 0; a format that
    ends in `%` or `%l` makes the loop read on behind its 0, so a 0 may be among the bytes. -/
def vsnprintfLoop : List Byte → Nat → List Byte → Option (List Byte)
  | [], _, buf => some buf
  | c :: fmt, arg, buf =>
    if c = 0 ∨ ¬ buf.length < last size then some buf
    else if c ≠ chr '%' then (put size c buf).bind (vsnprintfLoop fmt arg)
    else match fmt with
      | [] => (convert size env 0 arg buf).map Prod.snd
      | c :: fmt =>
        if c = chr 'l' then
          match fmt with
          | [] => (convertLong size env 0 arg buf).map Prod.snd
          | c :: fmt => (convertLong size env c arg buf).bind (fun out => vsnprintfLoop fmt out.1 out.2)
        else (convert size env c arg buf).bind (fun out => vsnprintfLoop fmt out.1 out.2)

/-- `__vsnprintf`: the text, without the 0 that is written behind it. -/
def vsnprintf (fmt : List Byte) : Option (List Byte) :=
  (vsnprintfLoop size env fmt 0 []).bind (fun buf => (put size 0 buf).map (fun _ => buf))

end

/-! ### The log -/

def logBufSize : Nat := 2^16

structure Log where
  logBuf : Nat → Byte
  logHead : Nat
  logTail : Nat

/-- The body of the loop of `__log_store`. -/
def logPut (log : Log) (c : Byte) : Log :=
  let logHead := add64 log.logHead 1
  { logBuf := Function.update log.logBuf (log.logHead % logBufSize) c
    logHead := logHead
    logTail := if sub64 logHead log.logTail > logBufSize then sub64 logHead logBufSize else log.logTail }

def logStore (log : Log) (text : List Byte) : Log := text.foldl logPut log

/-- `dmesg_read` with a buffer of `size` bytes: what it copies there. Its result is the length of it. -/
def dmesgRead (size : Nat) (log : Log) : List Byte :=
  let len := sub64 log.logHead log.logTail
  let len := if len > logBufSize then logBufSize else len
  let len := if len > size then size else len
  (List.range len).map (fun i => log.logBuf (add64 log.logTail i % logBufSize))

def emptyLog : Log := ⟨fun _ => 0,0,0⟩

/-- The log, `console_loglevel`, and what was written to the console. -/
structure Kernel where
  log : Log
  consoleLoglevel : Int
  console : List Byte

def consoleWrite (text : List Byte) (k : Kernel) : Kernel :=
  { k with console := k.console ++ text.flatMap (fun c => if c = chr '\n' then [chr '\r',c] else [c]) }

def defaultLoglevel : Int := 4

/-- `__extract_level`: the level and the format behind the tag. -/
def extractLevel (fmt : List Byte) : Int × List Byte :=
  if fmt.getD 0 0 = chr '<' ∧ fmt.getD 2 0 = chr '>' then
    let level := (fmt.getD 1 0).toInt - 48
    if level ≥ 0 ∧ level ≤ 7 then (level,fmt.drop 3) else (defaultLoglevel,fmt)
  else (defaultLoglevel,fmt)

def bufSize : Nat := 1024

def printk (fmt : List Byte) (env : Env) (k : Kernel) : Option Kernel :=
  let (level,p) := extractLevel fmt
  (vsnprintf bufSize env p).map (fun buf =>
    let k := { k with log := logStore k.log buf }
    if level ≤ k.consoleLoglevel then consoleWrite buf k else k)

def printkEmerg (fmt : List Byte) (env : Env) (k : Kernel) : Option Kernel :=
  (vsnprintf bufSize env fmt).map (fun buf => consoleWrite buf { k with log := logStore k.log buf })

/-- The other functions of the family: the tag, the text, and the console if the level is low enough. -/
def printkTagged (level : Int) (tag : List Byte) (fmt : List Byte) (env : Env) (k : Kernel) : Option Kernel :=
  (vsnprintf bufSize env fmt).map (fun buf =>
    let k := { k with log := logStore (logStore k.log tag) buf }
    if level ≤ k.consoleLoglevel then consoleWrite buf k else k)

def tag (level : Char) : List Byte := [chr '<',chr level,chr '>']

def printkAlert := printkTagged 1 (tag '1')
def printkCrit := printkTagged 2 (tag '2')
def printkErr := printkTagged 3 (tag '3')
def printkWarn := printkTagged 4 (tag '4')
def printkNotice := printkTagged 5 (tag '5')
def printkInfo := printkTagged 6 (tag '6')
def printkDebug := printkTagged 7 (tag '7')

def dmesgClear (k : Kernel) : Kernel := { k with log := emptyLog }

def printkSetLoglevel (level : Int) (k : Kernel) : Kernel :=
  if level ≥ 0 ∧ level ≤ 7 then { k with consoleLoglevel := level } else k

def start : Kernel := ⟨emptyLog,7,[]⟩

inductive Printer where
  | printk | emerg | alert | crit | err | warn | notice | info | debug

inductive Request where
  | print (printer : Printer) (fmt : List Byte) (env : Env)
  | clear
  | setLoglevel (level : Int)

def step (k : Kernel) : Request → Option Kernel
  | .print .printk fmt env => printk fmt env k
  | .print .emerg fmt env => printkEmerg fmt env k
  | .print .alert fmt env => printkAlert fmt env k
  | .print .crit fmt env => printkCrit fmt env k
  | .print .err fmt env => printkErr fmt env k
  | .print .warn fmt env => printkWarn fmt env k
  | .print .notice fmt env => printkNotice fmt env k
  | .print .info fmt env => printkInfo fmt env k
  | .print .debug fmt env => printkDebug fmt env k
  | .clear => some (dmesgClear k)
  | .setLoglevel level => some (printkSetLoglevel level k)

def formatted (printer : Printer) (fmt : List Byte) (env : Env) : Option (List Byte) :=
  match printer with
  | .printk => vsnprintf bufSize env (extractLevel fmt).2
  | _ => vsnprintf bufSize env fmt

/-- The level tag that a function stores before the text. -/
def Printer.tag : Printer → List Byte
  | .printk | .emerg => []
  | .alert => Printk.tag '1'
  | .crit => Printk.tag '2'
  | .err => Printk.tag '3'
  | .warn => Printk.tag '4'
  | .notice => Printk.tag '5'
  | .info => Printk.tag '6'
  | .debug => Printk.tag '7'

/-- The characters that a call stores. -/
def Request.chars : Request → List Byte
  | .print printer fmt env => printer.tag ++ (formatted printer fmt env).getD []
  | .clear | .setLoglevel _ => []

/-- The characters stored since the last clear, with one more request. -/
def record (all : List Byte) : Request → List Byte
  | .print printer fmt env => all ++ (Request.print printer fmt env).chars
  | .clear => []
  | .setLoglevel _ => all

def total (requests : List Request) : Nat := (requests.map (fun request => request.chars.length)).sum

section
variable {size room arg : Nat} {c : Byte} {buf : List Byte} {out : Option (List Byte)} {env : Env}

/-- A text was written, and the 0 behind it has room. -/
def Fits (size : Nat) (out : Option (List Byte)) : Prop := ∃ buf, out = some buf ∧ buf.length ≤ last size

theorem Fits.bind {next : List Byte → Option (List Byte)} (fits : Fits size out)
    (go : ∀ buf, buf.length ≤ last size → Fits size (next buf)) : Fits size (out.bind next) := by
  obtain ⟨buf,rfl,short⟩ := fits
  exact go buf short

section
variable (inside : last size < size)
include inside

private theorem put_fits (free : buf.length < last size) : Fits size (put size c buf) :=
  ⟨buf ++ [c],if_pos (Nat.lt_trans free inside),by rw [List.length_append]; exact free⟩

private theorem putIf_fits (short : buf.length ≤ last size) : Fits size (putIf size c buf) := by
  rw [putIf]
  split
  case isTrue free => exact put_fits inside free
  case isFalse => exact ⟨buf,rfl,short⟩

private theorem putAll_fits (text : List Byte) (short : buf.length ≤ last size) :
    Fits size (putAll size text buf) := by
  induction text generalizing buf with
  | nil => exact ⟨_,rfl,short⟩
  | cons c rest ih =>
    rw [putAll]
    split
    case isTrue free => exact (put_fits inside free).bind (fun _ => ih)
    case isFalse => exact ⟨buf,rfl,short⟩

end

private theorem tdiv_ten (val : Int) : val.tdiv 10 = if 0 ≤ val then val / 10 else -(-val / 10) := by
  split
  case isTrue nonneg => exact Int.tdiv_eq_ediv_of_nonneg nonneg
  case isFalse negative => rw [←Int.tdiv_eq_ediv_of_nonneg (by omega),Int.neg_tdiv,Int.neg_neg]

private theorem toNum_some : ∀ (room : Nat) (val : Int), val < 10^(room + 1) → ∃ num, toNum (room + 1) val = some num
  | 0, val, small => by
    refine ⟨_,if_neg ?_⟩
    rw [tdiv_ten]
    split <;> omega
  | room+1, val, small => by
    rw [toNum]
    split
    case isFalse => exact ⟨_,rfl⟩
    case isTrue =>
      have positive : (0 : Int) < 10^(room + 1) := Int.pow_pos (by decide)
      have less : val.tdiv 10 < 10^(room + 1) := by
        rw [tdiv_ten]
        split <;> omega
      obtain ⟨num,more⟩ := toNum_some room (val.tdiv 10) less
      rw [more]
      exact ⟨_,rfl⟩

section
variable (inside : last size < size)
include inside

private theorem putDecimal_fits {val : Int} (short : buf.length ≤ last size) (small : val < 10^(room + 1)) :
    Fits size (putDecimal size (room + 1) val buf) := by
  obtain ⟨num,digits⟩ := toNum_some room val small
  rw [putDecimal,digits]
  exact putAll_fits inside _ short

section
variable (free : buf.length < last size)
include free

private theorem putSigned_fits {width : Nat} {val : BitVec width} (small : (2 : Int)^width ≤ 10^(room + 1)) : Fits size (putSigned size (room + 1) val buf) := by
  have bound : ∀ v : BitVec width, v.toInt < 10^(room + 1) := by
    intro v
    have whole : (v.toNat : Int) < 2^width := by exact_mod_cast v.isLt
    rw [BitVec.toInt_eq_toNat_cond]
    split <;> omega
  rw [putSigned]
  split
  · exact (put_fits inside free).bind (fun _ short => putDecimal_fits inside short (bound _))
  · exact putDecimal_fits inside (Nat.le_of_lt free) (bound val)

private theorem putHex_fits {digits val : Nat} :
    Fits size (putHex size digits val buf) :=
  (put_fits inside free).bind (fun _ short => (putIf_fits inside short).bind (fun _ short => putAll_fits inside _ short))

private theorem convertLong_fits :
    Fits size ((convertLong size env c arg buf).map Prod.snd) := by
  have short := Nat.le_of_lt free
  simp only [convertLong]
  split_ifs <;> simp only [Option.map_map,Function.comp_def,Option.map_id']
  · exact putDecimal_fits inside short (by omega)
  · exact putHex_fits inside free
  · exact putSigned_fits inside free (by decide)
  · exact (put_fits inside free).bind (fun _ short => (putIf_fits inside short).bind (fun _ short => putIf_fits inside short))

private theorem convert_fits :
    Fits size ((convert size env c arg buf).map Prod.snd) := by
  have short := Nat.le_of_lt free
  simp only [convert]
  split_ifs <;> simp only [Option.map_map,Function.comp_def,Option.map_id']
  · exact putSigned_fits inside free (by decide)
  · exact putDecimal_fits inside short (by omega)
  · exact putHex_fits inside free
  · exact putHex_fits inside free
  · exact putAll_fits inside _ short
  · exact put_fits inside free
  · exact put_fits inside free
  · exact (put_fits inside free).bind (fun _ short => putIf_fits inside short)

end

end

theorem Fits.andThen {out : Option (Nat × List Byte)} {next : Nat → List Byte → Option (List Byte)} (fits : Fits size (out.map Prod.snd))
    (go : ∀ arg buf, buf.length ≤ last size → Fits size (next arg buf)) : Fits size (out.bind (fun o => next o.1 o.2)) := by
  obtain ⟨_,written,short⟩ := fits
  obtain ⟨⟨arg,buf⟩,rfl,rfl⟩ := Option.map_eq_some_iff.mp written
  exact go arg buf short

theorem vsnprintfLoop_fits (inside : last size < size) : ∀ (fmt : List Byte) (arg : Nat) (buf : List Byte),
    buf.length ≤ last size → Fits size (vsnprintfLoop size env fmt arg buf)
  | [], arg, buf, short => ⟨buf,rfl,short⟩
  | c :: fmt, arg, buf, short => by
    unfold vsnprintfLoop
    split_ifs with done plain
    · exact ⟨buf,rfl,short⟩
    all_goals
      have free : buf.length < last size := Decidable.not_not.mp (fun full => done (.inr full))
    · exact (put_fits inside free).bind (vsnprintfLoop_fits inside fmt arg)
    · match fmt with
      | [] => exact convert_fits inside free
      | d :: fmt =>
        dsimp only
        split_ifs with long
        · match fmt with
          | [] => exact convertLong_fits inside free
          | e :: fmt => exact (convertLong_fits inside free).andThen (vsnprintfLoop_fits inside fmt)
        · exact (convert_fits inside free).andThen (vsnprintfLoop_fits inside fmt)

private theorem vsnprintf_fits (inside : last size < size) (fmt : List Byte) :
    ∃ text, vsnprintf size env fmt = some text ∧ text.length ≤ last size := by
  obtain ⟨buf,written,short⟩ := vsnprintfLoop_fits inside fmt 0 [] (Nat.zero_le _)
  refine ⟨buf,?_,short⟩
  rw [vsnprintf,written,Option.bind_some,put,if_pos (Nat.lt_of_le_of_lt short inside)]
  rfl

end

private theorem formatted_fits (printer : Printer) (fmt : List Byte) (env : Env) :
    ∃ text, formatted printer fmt env = some text ∧ text.length < bufSize := by
  have fits : ∀ fmt, ∃ text, vsnprintf bufSize env fmt = some text ∧ text.length < bufSize := by
    intro fmt
    obtain ⟨text,written,short⟩ := @vsnprintf_fits bufSize env (by decide) fmt
    exact ⟨text,written,Nat.lt_of_le_of_lt short (by decide)⟩
  cases printer <;> exact fits _

/-! ### The ring -/

/-- The log holds the last of the characters. -/
structure Logs (log : Log) (all : List Byte) : Prop where
  head : log.logHead = all.length
  tail : log.logTail = all.length - logBufSize
  holds : Rings.Holds logBufSize log.logBuf log.logTail (all.drop log.logTail)

variable {log : Log} {all : List Byte}

private theorem emptyLog_logs : Logs emptyLog [] := ⟨rfl,rfl,nofun⟩

theorem Logs.put (logs : Logs log all) (few : all.length + 1 < 2^64) (c : Byte) : Logs (logPut log c) (all ++ [c]) := by
  have head : add64 log.logHead 1 = all.length + 1 := by rw [logs.head,add64_of_lt few]
  have tail : (logPut log c).logTail = all.length + 1 - logBufSize := by
    simp only [logPut,head,logs.tail]
    rw [sub64_of_le (by omega) few]
    split
    case isTrue full =>
      rw [sub64_of_le (by omega) few]
    case isFalse free =>
      omega
  have length : (all ++ [c]).length = all.length + 1 := List.length_append
  refine ⟨head.trans length.symm,by rw [tail,length],?_⟩
  -- the oldest character is dropped first if the ring is full
  have shorter : Rings.Holds logBufSize log.logBuf (all.length + 1 - logBufSize) (all.drop (all.length + 1 - logBufSize)) := by
    have dropped := logs.holds.drop (all.length + 1 - logBufSize - log.logTail)
    rw [List.drop_drop] at dropped
    have place : log.logTail + (all.length + 1 - logBufSize - log.logTail) = all.length + 1 - logBufSize := by
      rw [logs.tail]
      omega
    rwa [place] at dropped
  have fits : (all.drop (all.length + 1 - logBufSize)).length + 1 ≤ logBufSize := by
    rw [List.length_drop]
    unfold logBufSize
    omega
  have filled := shorter.fill (fun _ => c) 1 fits
  have place : all.length + 1 - logBufSize + (all.drop (all.length + 1 - logBufSize)).length = log.logHead := by
    rw [List.length_drop,logs.head]
    omega
  rw [place] at filled
  rw [tail,List.drop_append_of_le_length (by unfold logBufSize; omega)]
  exact filled

theorem Logs.store {text : List Byte} (logs : Logs log all) (few : all.length + text.length < 2^64) :
    Logs (logStore log text) (all ++ text) := by
  induction text generalizing log all with
  | nil =>
    rw [List.append_nil]
    exact logs
  | cons c rest ih =>
    rw [List.length_cons] at few
    rw [List.append_cons]
    refine ih (logs.put (by omega) c) ?_
    rw [List.length_append,List.length_singleton]
    omega

theorem Logs.read (logs : Logs log all) (few : all.length < 2^64) (size : Nat) :
    dmesgRead size log = (all.drop (all.length - logBufSize)).take size := by
  have tail := logs.tail
  have holds := logs.holds
  have length : sub64 log.logHead log.logTail = (all.drop log.logTail).length := by
    rw [List.length_drop,logs.head,sub64_of_le (by omega) few]
  have fits : (all.drop log.logTail).length ≤ logBufSize := by
    rw [List.length_drop]
    omega
  simp only [dmesgRead,length]
  rw [if_neg (Nat.not_lt.mpr fits),←tail]
  have places : ∀ n ≤ (all.drop log.logTail).length,
      (List.range n).map (fun i => log.logBuf (add64 log.logTail i % logBufSize)) = (all.drop log.logTail).take n := by
    intro n inside
    rw [←holds.read inside]
    refine List.map_congr_left (fun i there => ?_)
    have low := List.mem_range.mp there
    rw [List.length_drop] at inside
    rw [add64_of_lt (by omega)]
  split
  case isTrue longer => exact places size (Nat.le_of_lt longer)
  case isFalse short =>
    rw [places _ (Nat.le_refl _),List.take_length,List.take_of_length_le (by omega)]

section
variable {k : Kernel} {fmt text : List Byte} {env : Env}

private theorem printk_log (written : vsnprintf bufSize env (extractLevel fmt).2 = some text) :
    ∃ t, printk fmt env k = some t ∧ t.log = logStore k.log text := by
  simp only [printk,written,Option.map_some]
  refine ⟨_,rfl,?_⟩
  split <;> rfl

private theorem printkEmerg_log (written : vsnprintf bufSize env fmt = some text) :
    ∃ t, printkEmerg fmt env k = some t ∧ t.log = logStore k.log text := by
  simp only [printkEmerg,written]
  exact ⟨_,rfl,rfl⟩

private theorem printkTagged_log {level : Int} {tag : List Byte} (written : vsnprintf bufSize env fmt = some text) :
    ∃ t, printkTagged level tag fmt env k = some t ∧ t.log = logStore (logStore k.log tag) text := by
  simp only [printkTagged,written,Option.map_some]
  refine ⟨_,rfl,?_⟩
  split <;> rfl

private theorem step_print {printer : Printer} (written : formatted printer fmt env = some text) :
    ∃ t, step k (.print printer fmt env) = some t ∧ t.log = logStore (logStore k.log printer.tag) text := by
  cases printer with
  | printk => exact printk_log written
  | emerg => exact printkEmerg_log written
  | _ => exact printkTagged_log written

end

theorem step_logs {k : Kernel} (logs : Logs k.log all) (request : Request) (few : all.length + request.chars.length < 2^64) :
    ∃ t, step k request = some t ∧ Logs t.log (record all request) := by
  cases request with
  | print printer fmt env =>
    obtain ⟨text,written,_⟩ := formatted_fits printer fmt env
    obtain ⟨t,stepped,log⟩ := @step_print k fmt text env printer written
    rw [Request.chars,written,Option.getD_some,List.length_append] at few
    refine ⟨t,stepped,?_⟩
    rw [log,record,Request.chars,written,←List.append_assoc]
    refine (logs.store (by omega)).store ?_
    rw [List.length_append]
    omega
  | clear => exact ⟨_,rfl,emptyLog_logs⟩
  | setLoglevel level =>
    refine ⟨_,rfl,?_⟩
    rw [printkSetLoglevel]
    split <;> exact logs

private theorem length_record (all : List Byte) (request : Request) : (record all request).length ≤ all.length + request.chars.length := by
  cases request <;> simp [record]

theorem run_logs (requests : List Request) (k : Kernel) (all : List Byte) (logs : Logs k.log all) (few : all.length + total requests < 2^64) :
    ∃ t, run step k requests = some t ∧ Logs t.log (requests.foldl record all) ∧ (requests.foldl record all).length < 2^64 := by
  induction requests generalizing k all with
  | nil => exact ⟨k,rfl,logs,few⟩
  | cons request rest ih =>
    have sum : total (request :: rest) = request.chars.length + total rest := by simp [total]
    have longer := length_record all request
    obtain ⟨t,stepped,kept⟩ := step_logs logs request (by omega)
    obtain ⟨u,ran,final⟩ := ih t _ kept (by omega)
    exact ⟨u,by rw [run_cons,stepped]; exact ran,final⟩

/-- The log has the last bytes that were printed, and no line is longer than its buffer, in every run. -/
theorem printk_run_logged (requests : List Request) (few : total requests < 2^64) :
    ∃ k, run step start requests = some k ∧
      (∀ size, dmesgRead size k.log =
        ((requests.foldl record []).drop ((requests.foldl record []).length - logBufSize)).take size) ∧
      ∀ printer fmt env, .print printer fmt env ∈ requests →
        ∃ text, formatted printer fmt env = some text ∧ text.length + 1 ≤ bufSize := by
  obtain ⟨k,ran,logs,short⟩ := run_logs requests start [] emptyLog_logs (by rw [List.length_nil]; omega)
  exact ⟨k,ran,logs.read short,fun printer fmt env _ => formatted_fits printer fmt env⟩

def someEnv : Env := ⟨fun n => if n = 0 then 42 else -7,fun _ => []⟩

def someRun : List Request :=
  [.print .printk ("<3>lost".toList.map chr) someEnv,.clear,.print .warn ("%u of %d".toList.map chr) someEnv,
    .print .emerg ("%lx%".toList.map chr) someEnv]

theorem printk_run_logged_of_three :
    total someRun < 2^64 ∧ ∃ k, run step start someRun = some k ∧
      (∀ size, dmesgRead size k.log =
        ((someRun.foldl record []).drop ((someRun.foldl record []).length - logBufSize)).take size) ∧
      ∀ printer fmt env, .print printer fmt env ∈ someRun →
        ∃ text, formatted printer fmt env = some text ∧ text.length + 1 ≤ bufSize :=
  have few : total someRun < 2^64 := by decide +kernel
  ⟨few,printk_run_logged someRun few⟩

example : (run step start someRun).map (fun k => dmesgRead 11 k.log) = some ("<4>42 of -7".toList.map chr) := by decide +kernel

end Kenux.Printk
