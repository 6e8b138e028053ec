import Kenux.Runs
import Mathlib.Data.List.Perm.Basic

/-!
The security modules of `lsm.c`: modules register a table of hooks, and `security_X` asks
each registered module in turn until one refuses. Three wrappers, `security_inode_setattr`,
`security_inode_getattr` and `security_file_receive`, ask nobody (`security_inode_setattr_bypasses`).
For every other hook `security_X` is the conjunction of the registered modules' answers,
after every sequence of registrations and removals (`security_run_conjunction`).
-/
namespace Kenux.Lsm
open Kenux.Runs

/-- Addresses; 0 is NULL. -/
abbrev Ptr := Nat

def lsmOrderFirst : Nat := 0
def lsmOrderSecondary : Nat := 1
def lsmNameMax : Nat := 32

/-- The hooks that a `security_X` of integer value stands for; `none` is a NULL pointer,
    which a table has where it is given nothing. -/
structure SecurityOperations where
  inodePermission : Option (Ptr → Int → Int) := none
  filePermission : Option (Ptr → Int → Int) := none
  taskCreate : Option (Ptr → Int) := none
  socketBind : Option (Ptr → Ptr → Int → Int) := none
  socketConnect : Option (Ptr → Ptr → Int → Int) := none
  socketAccept : Option (Ptr → Ptr → Int) := none
  socketSendmsg : Option (Ptr → Ptr → Int → Int) := none
  socketRecvmsg : Option (Ptr → Ptr → Int → Int → Int) := none
  inodeSetxattr : Option (Ptr → Ptr → Ptr → Int → Int → Int) := none
  inodeGetxattr : Option (Ptr → Ptr → Int) := none
  inodeRemovexattr : Option (Ptr → Ptr → Int) := none
  capability : Option (Ptr → Int → Int → Int) := none
  sysctl : Option (Ptr → Int → Int) := none
  mmapFile : Option (Ptr → Nat → Nat → Nat → Int) := none
  fileLock : Option (Ptr → Ptr → Int) := none
  kernfsInit : Option (Ptr → Int) := none
  kernfsSymlink : Option (Ptr → Ptr → Int) := none
  bprmCheckSecurity : Option (Ptr → Int) := none
  bprmSetCreds : Option (Ptr → Int) := none
  inodeCreate : Option (Ptr → Ptr → Int → Int) := none
  inodeLink : Option (Ptr → Ptr → Ptr → Int) := none
  inodeUnlink : Option (Ptr → Ptr → Int) := none
  inodeMkdir : Option (Ptr → Ptr → Int → Int) := none
  inodeRmdir : Option (Ptr → Ptr → Int) := none
  inodeRename : Option (Ptr → Ptr → Ptr → Ptr → Int) := none
  inodeSetattr : Option (Ptr → Int → Int) := none
  inodeGetattr : Option (Ptr → Int) := none
  fileOpen : Option (Ptr → Int) := none
  fileReceive : Option (Ptr → Int) := none
  taskSetuid : Option (Ptr → Ptr → Int) := none
  taskSetgid : Option (Ptr → Ptr → Int) := none
  taskKill : Option (Ptr → Int → Int) := none
  taskSetnice : Option (Ptr → Int → Int) := none
  taskSetscheduler : Option (Ptr → Int) := none
  ipcPermission : Option (Ptr → Int → Int) := none
  socketListen : Option (Ptr → Int → Int) := none
  socketShutdown : Option (Ptr → Int → Int) := none

structure LsmModule where
  name : List UInt8
  ops : Ptr
  order : Nat
  active : Int
  deriving DecidableEq, Repr

/-- The chain of modules that starts at `lsm_modules`, and `lsm_primary_ops`. -/
structure Registry where
  modules : List LsmModule
  primaryOps : Ptr
  deriving DecidableEq, Repr

def lsmInit : Registry := ⟨[],0⟩

/-- `strncmp` of two names, each the bytes before its NUL, over the length of a name. -/
def sameName (a b : List UInt8) : Bool := a.take lsmNameMax = b.take lsmNameMax

/-- The last loop of `lsm_register_security`: the module goes behind those of order first. -/
def insertSecondary (mod : LsmModule) : List LsmModule → List LsmModule
  | [] => [mod]
  | curr :: next => if curr.order = lsmOrderFirst then curr :: insertSecondary mod next else mod :: curr :: next

/-- `memory` says if there is memory for a module. -/
def lsmRegisterSecurity (name : Option (List UInt8)) (ops : Ptr) (memory : Bool) (l : Registry) : Int × Registry :=
  match name with
  | none => (-1,l)
  | some name =>
    if ops = 0 then (-1,l)
    else if l.modules.any (fun mod => sameName mod.name name) then (-1,l)
    else if memory = false then (-1,l)
    else
      let mod : LsmModule := ⟨name.take (lsmNameMax - 1),ops,lsmOrderSecondary,1⟩
      if l.primaryOps = 0 then (0,⟨{ mod with order := lsmOrderFirst } :: l.modules,ops⟩)
      else (0,{ l with modules := insertSecondary mod l.modules })

/-- The loop of `lsm_unregister_security`: the module it finds, and the chain without it. -/
def takeModule (name : List UInt8) : List LsmModule → Option (LsmModule × List LsmModule)
  | [] => none
  | mod :: next =>
    if sameName mod.name name then some (mod,next)
    else (takeModule name next).map (fun taken => (taken.1,mod :: taken.2))

def headOps : List LsmModule → Ptr
  | [] => 0
  | mod :: _ => mod.ops

def lsmUnregisterSecurity (name : Option (List UInt8)) (l : Registry) : Int × Registry :=
  match name with
  | none => (-1,l)
  | some name =>
    match takeModule name l.modules with
    | none => (-1,l)
    | some (mod,modules) => (0,⟨modules,if mod.ops = l.primaryOps then headOps modules else l.primaryOps⟩)

/-- The loop of every `lsm_call_chain_X`: `call` is the answer of the hook in a table, if it
    is there. -/
def callChain (mem : Ptr → SecurityOperations) (call : SecurityOperations → Option Int) : List LsmModule → Int
  | [] => 0
  | mod :: next =>
    if mod.active ≠ 0 ∧ mod.ops ≠ 0 then
      match call (mem mod.ops) with
      | some rc => if rc ≠ 0 then rc else callChain mem call next
      | none => callChain mem call next
    else callChain mem call next

section
variable (mem : Ptr → SecurityOperations) (l : Registry)

def lsmCallChainInodePermission (inode : Ptr) (mask : Int) : Int :=
  callChain mem (fun ops => ops.inodePermission.map (fun f => f inode mask)) l.modules

def lsmCallChainFilePermission (file : Ptr) (mask : Int) : Int :=
  callChain mem (fun ops => ops.filePermission.map (fun f => f file mask)) l.modules

def lsmCallChainTaskCreate (task : Ptr) : Int :=
  callChain mem (fun ops => ops.taskCreate.map (fun f => f task)) l.modules

def lsmCallChainSocketBind (sock addr : Ptr) (addrLen : Int) : Int :=
  callChain mem (fun ops => ops.socketBind.map (fun f => f sock addr addrLen)) l.modules

def lsmCallChainSocketConnect (sock addr : Ptr) (addrLen : Int) : Int :=
  callChain mem (fun ops => ops.socketConnect.map (fun f => f sock addr addrLen)) l.modules

def lsmCallChainSocketAccept (sock newsock : Ptr) : Int :=
  callChain mem (fun ops => ops.socketAccept.map (fun f => f sock newsock)) l.modules

def lsmCallChainSocketSendmsg (sock msg : Ptr) (size : Int) : Int :=
  callChain mem (fun ops => ops.socketSendmsg.map (fun f => f sock msg size)) l.modules

def lsmCallChainSocketRecvmsg (sock msg : Ptr) (size flags : Int) : Int :=
  callChain mem (fun ops => ops.socketRecvmsg.map (fun f => f sock msg size flags)) l.modules

def lsmCallChainInodeSetxattr (dentry name value : Ptr) (size flags : Int) : Int :=
  callChain mem (fun ops => ops.inodeSetxattr.map (fun f => f dentry name value size flags)) l.modules

def lsmCallChainInodeGetxattr (dentry name : Ptr) : Int :=
  callChain mem (fun ops => ops.inodeGetxattr.map (fun f => f dentry name)) l.modules

def lsmCallChainInodeRemovexattr (dentry name : Ptr) : Int :=
  callChain mem (fun ops => ops.inodeRemovexattr.map (fun f => f dentry name)) l.modules

def lsmCallChainCapability (task : Ptr) (cap audit : Int) : Int :=
  callChain mem (fun ops => ops.capability.map (fun f => f task cap audit)) l.modules

def lsmCallChainSysctl (name : Ptr) (op : Int) : Int :=
  callChain mem (fun ops => ops.sysctl.map (fun f => f name op)) l.modules

def lsmCallChainMmapFile (file : Ptr) (reqprot prot flags : Nat) : Int :=
  callChain mem (fun ops => ops.mmapFile.map (fun f => f file reqprot prot flags)) l.modules

def lsmCallChainFileLock (file fl : Ptr) : Int :=
  callChain mem (fun ops => ops.fileLock.map (fun f => f file fl)) l.modules

def lsmCallChainKernfsInit (kn : Ptr) : Int :=
  callChain mem (fun ops => ops.kernfsInit.map (fun f => f kn)) l.modules

def lsmCallChainKernfsSymlink (parent kn : Ptr) : Int :=
  callChain mem (fun ops => ops.kernfsSymlink.map (fun f => f parent kn)) l.modules

def lsmCallChainBprmCheck (bprm : Ptr) : Int :=
  callChain mem (fun ops => ops.bprmCheckSecurity.map (fun f => f bprm)) l.modules

def lsmCallChainBprmSetCreds (bprm : Ptr) : Int :=
  callChain mem (fun ops => ops.bprmSetCreds.map (fun f => f bprm)) l.modules

def lsmCallChainInodeCreate (dir dentry : Ptr) (mode : Int) : Int :=
  callChain mem (fun ops => ops.inodeCreate.map (fun f => f dir dentry mode)) l.modules

def lsmCallChainInodeLink (oldDentry dir newDentry : Ptr) : Int :=
  callChain mem (fun ops => ops.inodeLink.map (fun f => f oldDentry dir newDentry)) l.modules

def lsmCallChainInodeUnlink (dir dentry : Ptr) : Int :=
  callChain mem (fun ops => ops.inodeUnlink.map (fun f => f dir dentry)) l.modules

def lsmCallChainInodeMkdir (dir dentry : Ptr) (mode : Int) : Int :=
  callChain mem (fun ops => ops.inodeMkdir.map (fun f => f dir dentry mode)) l.modules

def lsmCallChainInodeRmdir (dir dentry : Ptr) : Int :=
  callChain mem (fun ops => ops.inodeRmdir.map (fun f => f dir dentry)) l.modules

def lsmCallChainInodeRename (oldDir oldDentry newDir newDentry : Ptr) : Int :=
  callChain mem (fun ops => ops.inodeRename.map (fun f => f oldDir oldDentry newDir newDentry)) l.modules

def lsmCallChainFileOpen (file : Ptr) : Int :=
  callChain mem (fun ops => ops.fileOpen.map (fun f => f file)) l.modules

def lsmCallChainTaskSetuid (newCreds oldCreds : Ptr) : Int :=
  callChain mem (fun ops => ops.taskSetuid.map (fun f => f newCreds oldCreds)) l.modules

def lsmCallChainTaskSetgid (newCreds oldCreds : Ptr) : Int :=
  callChain mem (fun ops => ops.taskSetgid.map (fun f => f newCreds oldCreds)) l.modules

def lsmCallChainTaskKill (task : Ptr) (sig : Int) : Int :=
  callChain mem (fun ops => ops.taskKill.map (fun f => f task sig)) l.modules

def lsmCallChainTaskSetnice (task : Ptr) (nice : Int) : Int :=
  callChain mem (fun ops => ops.taskSetnice.map (fun f => f task nice)) l.modules

def lsmCallChainTaskSetscheduler (task : Ptr) : Int :=
  callChain mem (fun ops => ops.taskSetscheduler.map (fun f => f task)) l.modules

def lsmCallChainIpcPermission (ipcPerm : Ptr) (flag : Int) : Int :=
  callChain mem (fun ops => ops.ipcPermission.map (fun f => f ipcPerm flag)) l.modules

def lsmCallChainSocketListen (sock : Ptr) (backlog : Int) : Int :=
  callChain mem (fun ops => ops.socketListen.map (fun f => f sock backlog)) l.modules

def lsmCallChainSocketShutdown (sock : Ptr) (how : Int) : Int :=
  callChain mem (fun ops => ops.socketShutdown.map (fun f => f sock how)) l.modules

def securityInodePermission (inode : Ptr) (mask : Int) : Int :=
  lsmCallChainInodePermission mem l inode mask

def securityFilePermission (file : Ptr) (mask : Int) : Int :=
  lsmCallChainFilePermission mem l file mask

def securityTaskCreate (task : Ptr) : Int :=
  lsmCallChainTaskCreate mem l task

def securitySocketBind (sock addr : Ptr) (addrLen : Int) : Int :=
  lsmCallChainSocketBind mem l sock addr addrLen

def securitySocketConnect (sock addr : Ptr) (addrLen : Int) : Int :=
  lsmCallChainSocketConnect mem l sock addr addrLen

def securitySocketAccept (sock newsock : Ptr) : Int :=
  lsmCallChainSocketAccept mem l sock newsock

def securitySocketSendmsg (sock msg : Ptr) (size : Int) : Int :=
  lsmCallChainSocketSendmsg mem l sock msg size

def securitySocketRecvmsg (sock msg : Ptr) (size flags : Int) : Int :=
  lsmCallChainSocketRecvmsg mem l sock msg size flags

def securityInodeSetxattr (dentry name value : Ptr) (size flags : Int) : Int :=
  lsmCallChainInodeSetxattr mem l dentry name value size flags

def securityInodeGetxattr (dentry name : Ptr) : Int :=
  lsmCallChainInodeGetxattr mem l dentry name

def securityInodeRemovexattr (dentry name : Ptr) : Int :=
  lsmCallChainInodeRemovexattr mem l dentry name

def securityCapability (task : Ptr) (cap audit : Int) : Int :=
  lsmCallChainCapability mem l task cap audit

def securitySysctl (name : Ptr) (op : Int) : Int :=
  lsmCallChainSysctl mem l name op

def securityMmapFile (file : Ptr) (reqprot prot flags : Nat) : Int :=
  lsmCallChainMmapFile mem l file reqprot prot flags

def securityFileLock (file fl : Ptr) : Int :=
  lsmCallChainFileLock mem l file fl

def securityKernfsInit (kn : Ptr) : Int :=
  lsmCallChainKernfsInit mem l kn

def securityKernfsSymlink (parent kn : Ptr) : Int :=
  lsmCallChainKernfsSymlink mem l parent kn

def securityBprmCheck (bprm : Ptr) : Int :=
  lsmCallChainBprmCheck mem l bprm

def securityBprmSetCreds (bprm : Ptr) : Int :=
  lsmCallChainBprmSetCreds mem l bprm

def securityInodeCreate (dir dentry : Ptr) (mode : Int) : Int :=
  lsmCallChainInodeCreate mem l dir dentry mode

def securityInodeLink (oldDentry dir newDentry : Ptr) : Int :=
  lsmCallChainInodeLink mem l oldDentry dir newDentry

def securityInodeUnlink (dir dentry : Ptr) : Int :=
  lsmCallChainInodeUnlink mem l dir dentry

def securityInodeMkdir (dir dentry : Ptr) (mode : Int) : Int :=
  lsmCallChainInodeMkdir mem l dir dentry mode

def securityInodeRmdir (dir dentry : Ptr) : Int :=
  lsmCallChainInodeRmdir mem l dir dentry

def securityInodeRename (oldDir oldDentry newDir newDentry : Ptr) : Int :=
  lsmCallChainInodeRename mem l oldDir oldDentry newDir newDentry

def securityInodeSetattr (_dentry : Ptr) (_iattr : Int) : Int := 0

def securityInodeGetattr (_path : Ptr) : Int := 0

def securityFileOpen (file : Ptr) : Int :=
  lsmCallChainFileOpen mem l file

def securityFileReceive (_file : Ptr) : Int := 0

def securityTaskSetuid (newCreds oldCreds : Ptr) : Int :=
  lsmCallChainTaskSetuid mem l newCreds oldCreds

def securityTaskSetgid (newCreds oldCreds : Ptr) : Int :=
  lsmCallChainTaskSetgid mem l newCreds oldCreds

def securityTaskKill (task : Ptr) (sig : Int) : Int :=
  lsmCallChainTaskKill mem l task sig

def securityTaskSetnice (task : Ptr) (nice : Int) : Int :=
  lsmCallChainTaskSetnice mem l task nice

def securityTaskSetscheduler (task : Ptr) : Int :=
  lsmCallChainTaskSetscheduler mem l task

def securityIpcPermission (ipcPerm : Ptr) (flag : Int) : Int :=
  lsmCallChainIpcPermission mem l ipcPerm flag

def securitySocketListen (sock : Ptr) (backlog : Int) : Int :=
  lsmCallChainSocketListen mem l sock backlog

def securitySocketShutdown (sock : Ptr) (how : Int) : Int :=
  lsmCallChainSocketShutdown mem l sock how

end

/-- A call of a hook: every `security_X` of integer value with its arguments. -/
inductive Call where
  | inodePermission (inode : Ptr) (mask : Int)
  | filePermission (file : Ptr) (mask : Int)
  | taskCreate (task : Ptr)
  | socketBind (sock addr : Ptr) (addrLen : Int)
  | socketConnect (sock addr : Ptr) (addrLen : Int)
  | socketAccept (sock newsock : Ptr)
  | socketSendmsg (sock msg : Ptr) (size : Int)
  | socketRecvmsg (sock msg : Ptr) (size flags : Int)
  | inodeSetxattr (dentry name value : Ptr) (size flags : Int)
  | inodeGetxattr (dentry name : Ptr)
  | inodeRemovexattr (dentry name : Ptr)
  | capability (task : Ptr) (cap audit : Int)
  | sysctl (name : Ptr) (op : Int)
  | mmapFile (file : Ptr) (reqprot prot flags : Nat)
  | fileLock (file fl : Ptr)
  | kernfsInit (kn : Ptr)
  | kernfsSymlink (parent kn : Ptr)
  | bprmCheck (bprm : Ptr)
  | bprmSetCreds (bprm : Ptr)
  | inodeCreate (dir dentry : Ptr) (mode : Int)
  | inodeLink (oldDentry dir newDentry : Ptr)
  | inodeUnlink (dir dentry : Ptr)
  | inodeMkdir (dir dentry : Ptr) (mode : Int)
  | inodeRmdir (dir dentry : Ptr)
  | inodeRename (oldDir oldDentry newDir newDentry : Ptr)
  | inodeSetattr (dentry : Ptr) (iattr : Int)
  | inodeGetattr (path : Ptr)
  | fileOpen (file : Ptr)
  | fileReceive (file : Ptr)
  | taskSetuid (newCreds oldCreds : Ptr)
  | taskSetgid (newCreds oldCreds : Ptr)
  | taskKill (task : Ptr) (sig : Int)
  | taskSetnice (task : Ptr) (nice : Int)
  | taskSetscheduler (task : Ptr)
  | ipcPermission (ipcPerm : Ptr) (flag : Int)
  | socketListen (sock : Ptr) (backlog : Int)
  | socketShutdown (sock : Ptr) (how : Int)
  deriving DecidableEq, Repr

/-- What a module's table answers to the call. -/
def Call.hook : Call → SecurityOperations → Option Int
  | .inodePermission inode mask, ops => ops.inodePermission.map (fun f => f inode mask)
  | .filePermission file mask, ops => ops.filePermission.map (fun f => f file mask)
  | .taskCreate task, ops => ops.taskCreate.map (fun f => f task)
  | .socketBind sock addr addrLen, ops => ops.socketBind.map (fun f => f sock addr addrLen)
  | .socketConnect sock addr addrLen, ops => ops.socketConnect.map (fun f => f sock addr addrLen)
  | .socketAccept sock newsock, ops => ops.socketAccept.map (fun f => f sock newsock)
  | .socketSendmsg sock msg size, ops => ops.socketSendmsg.map (fun f => f sock msg size)
  | .socketRecvmsg sock msg size flags, ops => ops.socketRecvmsg.map (fun f => f sock msg size flags)
  | .inodeSetxattr dentry name value size flags, ops => ops.inodeSetxattr.map (fun f => f dentry name value size flags)
  | .inodeGetxattr dentry name, ops => ops.inodeGetxattr.map (fun f => f dentry name)
  | .inodeRemovexattr dentry name, ops => ops.inodeRemovexattr.map (fun f => f dentry name)
  | .capability task cap audit, ops => ops.capability.map (fun f => f task cap audit)
  | .sysctl name op, ops => ops.sysctl.map (fun f => f name op)
  | .mmapFile file reqprot prot flags, ops => ops.mmapFile.map (fun f => f file reqprot prot flags)
  | .fileLock file fl, ops => ops.fileLock.map (fun f => f file fl)
  | .kernfsInit kn, ops => ops.kernfsInit.map (fun f => f kn)
  | .kernfsSymlink parent kn, ops => ops.kernfsSymlink.map (fun f => f parent kn)
  | .bprmCheck bprm, ops => ops.bprmCheckSecurity.map (fun f => f bprm)
  | .bprmSetCreds bprm, ops => ops.bprmSetCreds.map (fun f => f bprm)
  | .inodeCreate dir dentry mode, ops => ops.inodeCreate.map (fun f => f dir dentry mode)
  | .inodeLink oldDentry dir newDentry, ops => ops.inodeLink.map (fun f => f oldDentry dir newDentry)
  | .inodeUnlink dir dentry, ops => ops.inodeUnlink.map (fun f => f dir dentry)
  | .inodeMkdir dir dentry mode, ops => ops.inodeMkdir.map (fun f => f dir dentry mode)
  | .inodeRmdir dir dentry, ops => ops.inodeRmdir.map (fun f => f dir dentry)
  | .inodeRename oldDir oldDentry newDir newDentry, ops => ops.inodeRename.map (fun f => f oldDir oldDentry newDir newDentry)
  | .inodeSetattr dentry iattr, ops => ops.inodeSetattr.map (fun f => f dentry iattr)
  | .inodeGetattr path, ops => ops.inodeGetattr.map (fun f => f path)
  | .fileOpen file, ops => ops.fileOpen.map (fun f => f file)
  | .fileReceive file, ops => ops.fileReceive.map (fun f => f file)
  | .taskSetuid newCreds oldCreds, ops => ops.taskSetuid.map (fun f => f newCreds oldCreds)
  | .taskSetgid newCreds oldCreds, ops => ops.taskSetgid.map (fun f => f newCreds oldCreds)
  | .taskKill task sig, ops => ops.taskKill.map (fun f => f task sig)
  | .taskSetnice task nice, ops => ops.taskSetnice.map (fun f => f task nice)
  | .taskSetscheduler task, ops => ops.taskSetscheduler.map (fun f => f task)
  | .ipcPermission ipcPerm flag, ops => ops.ipcPermission.map (fun f => f ipcPerm flag)
  | .socketListen sock backlog, ops => ops.socketListen.map (fun f => f sock backlog)
  | .socketShutdown sock how, ops => ops.socketShutdown.map (fun f => f sock how)

/-- What `security_X` returns. -/
def Call.security (mem : Ptr → SecurityOperations) (l : Registry) : Call → Int
  | .inodePermission inode mask => securityInodePermission mem l inode mask
  | .filePermission file mask => securityFilePermission mem l file mask
  | .taskCreate task => securityTaskCreate mem l task
  | .socketBind sock addr addrLen => securitySocketBind mem l sock addr addrLen
  | .socketConnect sock addr addrLen => securitySocketConnect mem l sock addr addrLen
  | .socketAccept sock newsock => securitySocketAccept mem l sock newsock
  | .socketSendmsg sock msg size => securitySocketSendmsg mem l sock msg size
  | .socketRecvmsg sock msg size flags => securitySocketRecvmsg mem l sock msg size flags
  | .inodeSetxattr dentry name value size flags => securityInodeSetxattr mem l dentry name value size flags
  | .inodeGetxattr dentry name => securityInodeGetxattr mem l dentry name
  | .inodeRemovexattr dentry name => securityInodeRemovexattr mem l dentry name
  | .capability task cap audit => securityCapability mem l task cap audit
  | .sysctl name op => securitySysctl mem l name op
  | .mmapFile file reqprot prot flags => securityMmapFile mem l file reqprot prot flags
  | .fileLock file fl => securityFileLock mem l file fl
  | .kernfsInit kn => securityKernfsInit mem l kn
  | .kernfsSymlink parent kn => securityKernfsSymlink mem l parent kn
  | .bprmCheck bprm => securityBprmCheck mem l bprm
  | .bprmSetCreds bprm => securityBprmSetCreds mem l bprm
  | .inodeCreate dir dentry mode => securityInodeCreate mem l dir dentry mode
  | .inodeLink oldDentry dir newDentry => securityInodeLink mem l oldDentry dir newDentry
  | .inodeUnlink dir dentry => securityInodeUnlink mem l dir dentry
  | .inodeMkdir dir dentry mode => securityInodeMkdir mem l dir dentry mode
  | .inodeRmdir dir dentry => securityInodeRmdir mem l dir dentry
  | .inodeRename oldDir oldDentry newDir newDentry => securityInodeRename mem l oldDir oldDentry newDir newDentry
  | .inodeSetattr dentry iattr => securityInodeSetattr dentry iattr
  | .inodeGetattr path => securityInodeGetattr path
  | .fileOpen file => securityFileOpen mem l file
  | .fileReceive file => securityFileReceive file
  | .taskSetuid newCreds oldCreds => securityTaskSetuid mem l newCreds oldCreds
  | .taskSetgid newCreds oldCreds => securityTaskSetgid mem l newCreds oldCreds
  | .taskKill task sig => securityTaskKill mem l task sig
  | .taskSetnice task nice => securityTaskSetnice mem l task nice
  | .taskSetscheduler task => securityTaskSetscheduler mem l task
  | .ipcPermission ipcPerm flag => securityIpcPermission mem l ipcPerm flag
  | .socketListen sock backlog => securitySocketListen mem l sock backlog
  | .socketShutdown sock how => securitySocketShutdown mem l sock how

/-- The calls whose `security_X` asks nobody. -/
def Call.Unasked : Call → Prop
  | .inodeSetattr _ _ => True
  | .inodeGetattr _ => True
  | .fileReceive _ => True
  | _ => False

inductive Request where
  | register (name : Option (List UInt8)) (ops : Ptr) (memory : Bool)
  | unregister (name : Option (List UInt8))
  deriving DecidableEq, Repr

/-- A registered module: the name it is known by, and its table. -/
structure Registration where
  name : List UInt8
  ops : Ptr
  deriving DecidableEq, Repr

def LsmModule.registration (m : LsmModule) : Registration := ⟨m.name,m.ops⟩

/-- The modules, and those that are registered: a call that returns 0 adds the one it was
    given, or removes the one it finds. -/
structure State where
  lsm : Registry
  registered : List Registration
  deriving DecidableEq, Repr

def registerState (name : List UInt8) (ops : Ptr) (rc : Int) (registered : List Registration) : List Registration :=
  if rc = 0 then ⟨name.take (lsmNameMax - 1),ops⟩ :: registered else registered

def unregisterState (name : List UInt8) (l : Registry) (registered : List Registration) : List Registration :=
  match takeModule name l.modules with
  | none => registered
  | some (mod,_) => registered.erase mod.registration

def step (s : State) : Request → Option State
  | .register name ops memory =>
    let (rc,l) := lsmRegisterSecurity name ops memory s.lsm
    some ⟨l,registerState (name.getD []) ops rc s.registered⟩
  | .unregister name =>
    let (_,l) := lsmUnregisterSecurity name s.lsm
    some ⟨l,name.elim s.registered (fun name => unregisterState name s.lsm s.registered)⟩

def start : State := ⟨lsmInit,[]⟩

/-- A call of a hook that is asked, or that no registered module implements. -/
def Meets (mem : Ptr → SecurityOperations) (s : State) (c : Call) : Prop :=
  ¬ c.Unasked ∨ ∀ r ∈ s.registered, c.hook (mem r.ops) = none

/-- Every registered module that implements the hook returns 0. -/
def Agreed (mem : Ptr → SecurityOperations) (s : State) (c : Call) : Prop :=
  ∀ r ∈ s.registered, ∀ rc, c.hook (mem r.ops) = some rc → rc = 0

section
variable {mem : Ptr → SecurityOperations} {call : SecurityOperations → Option Int} {l : Registry}

theorem callChain_eq_zero (modules : List LsmModule) :
    callChain mem call modules = 0 ↔
      ∀ m ∈ modules, m.active ≠ 0 ∧ m.ops ≠ 0 → ∀ rc, call (mem m.ops) = some rc → rc = 0 := by
  induction modules with
  | nil => simp [callChain]
  | cons mod next ih =>
    rw [callChain,List.forall_mem_cons]
    split
    case isTrue asked =>
      cases answer : call (mem mod.ops) with
      | none => simp [ih]
      | some rc =>
        by_cases agrees : rc = 0
        · simp [agrees,ih]
        · simp [agrees,asked]
    case isFalse asked =>
      rw [ih]
      simp [asked]

theorem Call.security_asked (c : Call) (asked : ¬ c.Unasked) :
    c.security mem l = callChain mem c.hook l.modules := by
  cases c <;> first | rfl | exact absurd trivial asked

theorem Call.security_unasked (c : Call) (unasked : c.Unasked) : c.security mem l = 0 := by
  cases c <;> first | rfl | exact unasked.elim

private theorem insertSecondary_perm (mod : LsmModule) (modules : List LsmModule) :
    (insertSecondary mod modules).Perm (mod :: modules) := by
  induction modules with
  | nil => rfl
  | cons curr next ih =>
    rw [insertSecondary]
    split
    · exact (ih.cons curr).trans (.swap ..)
    · rfl

theorem takeModule_perm {name : List UInt8} {modules rest : List LsmModule} {mod : LsmModule}
    (taken : takeModule name modules = some (mod,rest)) : modules.Perm (mod :: rest) := by
  induction modules generalizing rest with
  | nil => cases taken
  | cons curr next ih =>
    rw [takeModule] at taken
    split at taken
    · cases taken
      rfl
    · obtain ⟨⟨_,left⟩,found,same⟩ := Option.map_eq_some_iff.mp taken
      cases same
      exact ((ih found).cons curr).trans (.swap ..)

end

/-- The chain holds the registered modules, all of them active. -/
structure Inv (s : State) : Prop where
  registered : (s.lsm.modules.map LsmModule.registration).Perm s.registered
  live : ∀ m ∈ s.lsm.modules, m.active ≠ 0 ∧ m.ops ≠ 0

section
variable {s : State} {mem : Ptr → SecurityOperations}

section
variable (inv : Inv s)
include inv

theorem Inv.add {l : Registry} (mod : LsmModule) (more : l.modules.Perm (mod :: s.lsm.modules))
    (live : mod.active ≠ 0 ∧ mod.ops ≠ 0) : Inv ⟨l,mod.registration :: s.registered⟩ := by
  constructor
  · exact (more.map _).trans (inv.registered.cons _)
  · intro m inside
    rcases List.mem_cons.mp (more.mem_iff.mp inside) with rfl | old
    · exact live
    · exact inv.live m old

theorem Inv.register (name : Option (List UInt8)) (ops : Ptr) (memory : Bool) :
    ∃ t, step s (.register name ops memory) = some t ∧ Inv t := by
  refine ⟨_,rfl,?_⟩
  cases name with
  | none => exact inv
  | some name =>
    dsimp only
    split_ifs with null known room primary
    · exact inv
    · exact inv
    · exact inv
    · exact inv.add ⟨name.take (lsmNameMax - 1),ops,lsmOrderFirst,1⟩ (.refl _) ⟨Int.one_ne_zero,null⟩
    · exact inv.add ⟨name.take (lsmNameMax - 1),ops,lsmOrderSecondary,1⟩ (insertSecondary_perm _ _) ⟨Int.one_ne_zero,null⟩

theorem Inv.unregister (name : Option (List UInt8)) :
    ∃ t, step s (.unregister name) = some t ∧ Inv t := by
  refine ⟨_,rfl,?_⟩
  cases name with
  | none => exact inv
  | some name =>
    dsimp only [unregisterState,Option.elim]
    cases taken : takeModule name s.lsm.modules with
    | none => exact inv
    | some found =>
      obtain ⟨mod,rest⟩ := found
      have less := takeModule_perm taken
      constructor
      · have erased := (inv.registered.symm.trans (less.map _)).erase mod.registration
        rw [List.map_cons,List.erase_cons_head] at erased
        exact erased.symm
      · exact fun m inside => inv.live m (less.mem_iff.mpr (.tail _ inside))

theorem Inv.callChain (c : Call) : callChain mem c.hook s.lsm.modules = 0 ↔ Agreed mem s c := by
  rw [callChain_eq_zero]
  constructor
  · intro agreed r member
    obtain ⟨m,inside,rfl⟩ := List.mem_map.mp (inv.registered.mem_iff.mpr member)
    exact agreed m inside (inv.live m inside)
  · intro agreed m inside _
    exact agreed m.registration (inv.registered.mem_iff.mp (List.mem_map_of_mem inside))

theorem Inv.security (c : Call) (meets : Meets mem s c) :
    c.security mem s.lsm = 0 ↔ Agreed mem s c := by
  rcases meets with asked | absent
  · rw [c.security_asked asked]
    exact inv.callChain c
  · have agreed : Agreed mem s c := fun r member rc answer => nomatch (absent r member).symm.trans answer
    by_cases unasked : c.Unasked
    · exact iff_of_true (c.security_unasked unasked) agreed
    · rw [c.security_asked unasked]
      exact inv.callChain c

end

theorem inv_step (s : State) (a : Request) (inv : Inv s) : ∃ t, step s a = some t ∧ Inv t := by
  cases a with
  | register name ops memory => exact inv.register name ops memory
  | unregister name => exact inv.unregister name

end

/-- After any registrations a hook returns 0 exactly if every registered module agrees, unless it is one that stops early. -/
theorem security_run_conjunction (requests : List Request) :
    ∃ s, run step start requests = some s ∧
      ∀ (mem : Ptr → SecurityOperations) (c : Call), Meets mem s c → (c.security mem s.lsm = 0 ↔ Agreed mem s c) := by
  obtain ⟨s,ran,inv⟩ := run_always inv_step requests start ⟨.refl _,nofun⟩
  exact ⟨s,ran,fun mem c meets => inv.security c meets⟩

def tables (ops : Ptr) : SecurityOperations :=
  if ops = 1 then { fileOpen := some (fun _ => -13) }
  else { inodeSetattr := some (fun _ _ => -13) }

def registrations : List Request := [.register (some [97]) 1 true,.register (some [98]) 2 true,.register (some [97]) 1 true]

theorem security_run_conjunction_of_registrations :
    ∃ s, run step start registrations = some s ∧ (Call.fileOpen 7).security tables s.lsm = -13 ∧
      ((Call.fileOpen 7).security tables s.lsm = 0 ↔ Agreed tables s (.fileOpen 7)) := by
  obtain ⟨s,ran,conjunction⟩ := security_run_conjunction registrations
  have observed : (run step start registrations).map (fun s => (Call.fileOpen 7).security tables s.lsm) = some (-13) := by
    decide +kernel
  rw [ran] at observed
  exact ⟨s,ran,Option.some.inj observed,conjunction tables (.fileOpen 7) (.inl not_false)⟩

theorem security_inode_setattr_bypasses :
    ∃ s, run step start registrations = some s ∧ ¬ Agreed tables s (.inodeSetattr 7 0) ∧
      (Call.inodeSetattr 7 0).security tables s.lsm = 0 := by
  refine run_shows State.registered [⟨[98],2⟩,⟨[97],1⟩] (by decide +kernel) (fun s registered => ⟨fun agreed => ?_,rfl⟩)
  have refused := agreed ⟨[98],2⟩ (by rw [registered]; exact .head _) (-13) rfl
  cases refused

end Kenux.Lsm
