import Tcf.Base.Process
import Mathlib.Data.List.Basic
import Mathlib.Algebra.Order.Ring.Int

/-! The file system service: requests wait in the queues of open files and directories, one of each queue is posted, and
a request that needs no open file has a record of its own for the time. -/
namespace Tcf.FileSystem

/-- Types of `AsyncReqInfo`. -/
inductive ReqType where
  | open_ | openDir
  | read | seekRead | write | seekWrite | fstat | fSetStat | readDir
  | close | closeDir
  | stat | lstat | setStat | remove | roots
  deriving DecidableEq, Repr

/-- Errors are those of the system; no error is 0. -/
def ebadf : Nat := 9
def enospc : Nat := 28

/-- An `IORequest`. `fd` is none for -1, and `dir` for NULL; descriptors are told apart by when they were opened. `number` and
`channel` are of its command. -/
structure Request where
  number : Nat
  channel : Nat
  type : ReqType
  fd : Option Nat
  dir : Option Nat
  bufsz : Nat
  deriving DecidableEq, Repr

/-- An `OpenFileInfo`. `channel` is of its streams. `arrived` and `executed` are only for proofs: requests that came to the
queue, and those of them that were done. -/
structure OpenFileInfo where
  handle : Nat
  channel : Nat
  file : Option Nat
  dir : Option Nat
  reqs : List Request
  postedReq : Option Nat
  arrived : List Nat
  executed : List Nat
  deriving DecidableEq, Repr

/-- `type` is none for commands that make no request. -/
structure Reply where
  channel : Nat
  number : Nat
  type : Option ReqType
  err : Nat
  handle : Option Nat
  size : Nat
  eof : Bool
  deriving DecidableEq, Repr

inductive Descriptor where
  | file (fd : Nat)
  | dir (dir : Nat)
  deriving DecidableEq, Repr

/-- `infos` are those of `file_info_ring`, which the hash chains hold too. `abandoned` are requests whose handle is NULL. The
rest is only for proofs: channels that were closed, commands with their channels, and descriptors. -/
structure State where
  handleCnt : Nat
  infos : List OpenFileInfo
  abandoned : List Request
  replies : List Reply
  commands : List (Nat × Nat)
  gone : List Nat
  opened : List Descriptor
  closed : List Descriptor

def State.initial : State := ⟨0,[],[],[],[],[],[],[]⟩

section Handles

def isSpace (c : UInt8) : Bool := c = 32 ∨ (9 ≤ c ∧ c ≤ 13)

def isDigit (c : UInt8) : Bool := 48 ≤ c ∧ c ≤ 57

def decimal (digits : List UInt8) : Nat := digits.foldl (fun n c => n * 10 + (c.toNat - 48)) 0

/-- `strtoul` to base 10, with the rest of the string. -/
def strtoul (s : List UInt8) : Nat × List UInt8 :=
  let body := s.dropWhile isSpace
  let (negative,body) := match body with
    | c :: rest => if c = 45 then (true,rest) else if c = 43 then (false,rest) else (false,body)
    | [] => (false,body)
  let digits := body.takeWhile isDigit
  if digits = [] then (0,s)
  else
    let n := decimal digits
    let value := if n ≥ 2^64 then 2^64 - 1 else if negative then (2^64 - n) % 2^64 else n
    (value,body.dropWhile isDigit)

def findOpenFileInfo (s : State) (id : List UInt8) : Option OpenFileInfo :=
  match id with
  | 70 :: 83 :: c :: rest =>
    let (handle,rest) := strtoul (c :: rest)
    if rest ≠ [] then none else s.infos.find? fun h => h.handle = handle
  | _ => none

/-- The loop of `create_open_file_info`: the first number from the counter on that no record has. -/
def newHandle (s : State) : Option Nat :=
  ((List.range (s.infos.length + 1)).map fun i => (s.handleCnt + i) % 2^64).find? fun n => n ∉ s.infos.map OpenFileInfo.handle

end Handles

def State.setInfo (s : State) (h : OpenFileInfo) : State :=
  { s with infos := s.infos.map fun other => if other.handle = h.handle then h else other }

def State.reply (s : State) (r : Reply) : State := { s with replies := s.replies ++ [r] }

def deleteOpenFileInfo (s : State) (h : OpenFileInfo) : Code State := do
  require (h.reqs = [])
  pure { s with infos := s.infos.filter fun other => other.handle ≠ h.handle }

/-- Types of requests that wait in the queue of an open file or directory. -/
def Serialized : ReqType → Prop
  | .read | .seekRead | .write | .seekWrite | .fstat | .fSetStat | .close | .closeDir | .readDir => True
  | _ => False

instance : DecidablePred Serialized
  | .read | .seekRead | .write | .seekWrite | .fstat | .fSetStat | .close | .closeDir | .readDir => isTrue trivial
  | .open_ | .openDir | .stat | .lstat | .setStat | .remove | .roots => isFalse id

def terminateReplies (s : State) (channel : Nat) : List Request → Code State
  | [] => pure s
  | req :: rest => do
    require (Serialized req.type)
    terminateReplies (s.reply ⟨channel,req.number,some req.type,ebadf,none,0,false⟩) channel rest

def terminateOpenFileInfo (s : State) (h : OpenFileInfo) : Code State := do
  require (h.postedReq = none)
  let s ← terminateReplies s h.channel h.reqs
  deleteOpenFileInfo s { h with reqs := [] }

def postIoRequest (h : OpenFileInfo) : OpenFileInfo :=
  if h.postedReq = none then { h with postedReq := h.reqs.head?.map Request.number } else h

/-- `create_io_request`, with what the command sets in it, and `post_io_request`. -/
def createIoRequest (h : OpenFileInfo) (req : Request) : OpenFileInfo :=
  postIoRequest { h with reqs := h.reqs ++ [req], arrived := h.arrived ++ [req.number] }

/-- What the system made of a request: `error` and `rval`, the new `dir`, and `eof`. -/
structure Completion where
  error : Nat
  rval : Nat
  eof : Bool
  deriving DecidableEq, Repr

/-- How the reply to a request looks; a reply to `open` has the handle. -/
def answer (h : OpenFileInfo) (req : Request) (done : Completion) : Reply :=
  let reply : Reply := ⟨h.channel,req.number,some req.type,done.error,none,0,false⟩
  match req.type with
  | .read | .seekRead => if done.error ≠ 0 then reply else { reply with size := done.rval, eof := done.rval < req.bufsz }
  | .write | .seekWrite => if done.error = 0 ∧ done.rval < req.bufsz then { reply with err := enospc } else reply
  | .open_ | .openDir => if done.error ≠ 0 then reply else { reply with handle := some h.handle }
  | .readDir => { reply with eof := done.eof }
  | _ => reply

def State.setOpened (s : State) (d : Descriptor) : State := { s with opened := s.opened ++ [d] }

def State.setClosed (s : State) (ds : List Descriptor) : State := { s with closed := s.closed ++ ds }

def fileDescriptors (fd : Option Nat) : List Descriptor := fd.toList.map .file

def dirDescriptors (dir : Option Nat) : List Descriptor := dir.toList.map .dir

/-- `done_io_request` with its record; `h` has the request no more. -/
def doneWith (s : State) (h : OpenFileInfo) (req : Request) (done : Completion) : Code State := do
  let s := s.reply (answer h req done)
  match req.type with
  | .close =>
    if done.error = 0 then terminateOpenFileInfo (s.setClosed (fileDescriptors req.fd)) h
    else pure (s.setInfo (postIoRequest h))
  | .closeDir =>
    if done.error = 0 then terminateOpenFileInfo (s.setClosed (dirDescriptors req.dir)) h
    else pure (s.setInfo (postIoRequest h))
  | .open_ =>
    if done.error ≠ 0 then terminateOpenFileInfo s h
    else pure ((s.setOpened (.file done.rval)).setInfo (postIoRequest { h with file := some done.rval }))
  | .openDir =>
    if done.error ≠ 0 then terminateOpenFileInfo s h
    else pure ((s.setOpened (.dir done.rval)).setInfo (postIoRequest { h with dir := some done.rval }))
  | .lstat | .stat | .setStat | .remove | .roots => deleteOpenFileInfo s h
  | .read | .seekRead | .write | .seekWrite | .fstat | .fSetStat | .readDir => pure (s.setInfo (postIoRequest h))

/-- `done_io_request` of an abandoned request; a close that returns an error closed nothing. -/
def doneAbandoned (s : State) (req : Request) (done : Completion) : State :=
  let s := { s with abandoned := s.abandoned.erase req }
  match req.type with
  | .open_ => if done.error = 0 then (s.setOpened (.file done.rval)).setClosed [.file done.rval] else s
  | .openDir => if done.error = 0 then (s.setOpened (.dir done.rval)).setClosed [.dir done.rval] else s
  | .read | .write | .seekRead | .seekWrite | .fstat | .fSetStat => s.setClosed (fileDescriptors req.fd)
  | .readDir => s.setClosed (dirDescriptors req.dir)
  | .close => if done.error = 0 then s.setClosed (fileDescriptors req.fd) else s
  | .closeDir => if done.error = 0 then s.setClosed (dirDescriptors req.dir) else s
  | .lstat | .stat | .setStat | .remove | .roots => s

def OpenFileInfo.hasReq (number : Nat) (h : OpenFileInfo) : Bool := h.reqs.any fun req => req.number = number

def doneIoRequest (s : State) (number : Nat) (done : Completion) : Code State :=
  match s.infos.find? (OpenFileInfo.hasReq number) with
  | none =>
    match s.abandoned.find? fun req => req.number = number with
    | none => .error .stuck
    | some req => pure (doneAbandoned s req done)
  | some h => do
    require (h.postedReq = some number)
    match h.reqs with
    | [] => .error .assertion
    | req :: rest =>
      require (req.number = number)
      doneWith s { h with reqs := rest, postedReq := none, executed := h.executed ++ [number] } req done

/-- One record of a closed channel: what is posted is abandoned, or else the descriptors are closed. -/
def closeInfo (s : State) (h : OpenFileInfo) : State :=
  match h.reqs.filter fun req => h.postedReq = some req.number with
  | [] => s.setClosed (fileDescriptors h.file ++ dirDescriptors h.dir)
  | posted => { s with abandoned := s.abandoned ++ posted }

def channelCloseListener (s : State) (channel : Nat) : State :=
  let next := (s.infos.filter fun h => h.channel = channel).foldl closeInfo s
  { next with infos := s.infos.filter fun h => h.channel ≠ channel, gone := s.gone ++ [channel] }

/-- Commands. `onPath` is for those that make a record: open, opendir, stat, lstat, setstat, remove and roots; `atOnce` for those
that reply at once: rmdir, mkdir, realpath, rename, readlink, symlink, copy, with the files that it opens, and user. -/
inductive Command where
  | onPath (type : ReqType)
  | close (id : List UInt8)
  | read (id : List UInt8) (offset : Int) (len : Nat)
  | write (id : List UInt8) (offset : Int) (len : Nat)
  | fstat (id : List UInt8)
  | fSetStat (id : List UInt8)
  | readDir (id : List UInt8)
  | atOnce (err : Nat) (files : List Nat)
  deriving DecidableEq, Repr

/-- What commands with a handle ask for. -/
def request (number channel : Nat) (h : OpenFileInfo) : Command → Option Request
  | .close _ =>
    if h.dir.isSome then some ⟨number,channel,.closeDir,none,h.dir,0⟩ else some ⟨number,channel,.close,h.file,none,0⟩
  | .read _ offset len => some ⟨number,channel,if offset ≥ 0 then .seekRead else .read,h.file,none,len⟩
  | .write _ offset len => some ⟨number,channel,if offset ≥ 0 then .seekWrite else .write,h.file,none,len⟩
  | .fstat _ => some ⟨number,channel,.fstat,h.file,none,0⟩
  | .fSetStat _ => some ⟨number,channel,.fSetStat,h.file,none,0⟩
  | .readDir _ => if h.dir = none then none else some ⟨number,channel,.readDir,none,h.dir,0⟩
  | .onPath _ | .atOnce _ _ => none

/-- The reply to a command. -/
def Command.type : Command → Option ReqType
  | .onPath type => some type
  | .close _ => some .close
  | .read _ _ _ => some .read
  | .write _ _ _ => some .write
  | .fstat _ => some .fstat
  | .fSetStat _ => some .fSetStat
  | .readDir _ => some .readDir
  | .atOnce _ _ => none

def Command.id : Command → List UInt8
  | .close id | .read id _ _ | .write id _ _ | .fstat id | .fSetStat id | .readDir id => id
  | .onPath _ | .atOnce _ _ => []

/-- A command with a handle. -/
def commandHandle (s : State) (number channel : Nat) (c : Command) : State :=
  match (findOpenFileInfo s c.id).bind fun h => (request number channel h c).map fun req => (h,req) with
  | none => s.reply ⟨channel,number,c.type,ebadf,none,0,false⟩
  | some (h,req) => s.setInfo (createIoRequest h req)

def commandPath (s : State) (number channel : Nat) (type : ReqType) : Code State :=
  match newHandle s with
  | none => .error .stuck
  | some handle =>
    let h : OpenFileInfo := ⟨handle,channel,none,none,[],none,[],[]⟩
    pure { s with
      handleCnt := (handle + 1) % 2^64
      infos := createIoRequest h ⟨number,channel,type,none,none,0⟩ :: s.infos }

def command (s : State) (channel : Nat) (c : Command) : Code State :=
  let number := s.commands.length
  let s := { s with commands := s.commands ++ [(number,channel)] }
  match c with
  | .onPath type => commandPath s number channel type
  | .atOnce err files =>
    let s := { s with opened := s.opened ++ files.map Descriptor.file }.setClosed (files.map Descriptor.file)
    pure (s.reply ⟨channel,number,none,err,none,0,false⟩)
  | c => pure (commandHandle s number channel c)

inductive Event where
  | command (channel : Nat) (c : Command)
  | done (number : Nat) (done : Completion)
  | channelClose (channel : Nat)
  deriving DecidableEq, Repr

/-- What the system does: a new descriptor is new, and no descriptor cannot be closed. -/
def Possible (s : State) (req : Request) (done : Completion) : Prop :=
  (req.type = .open_ → done.error = 0 → .file done.rval ∉ s.opened) ∧
    (req.type = .openDir → done.error = 0 → .dir done.rval ∉ s.opened) ∧
    (req.type = .close → req.fd = none → done.error ≠ 0) ∧ (req.type = .closeDir → req.dir = none → done.error ≠ 0)

instance (s : State) (req : Request) (done : Completion) : Decidable (Possible s req done) :=
  inferInstanceAs (Decidable ((req.type = .open_ → done.error = 0 → .file done.rval ∉ s.opened) ∧
    (req.type = .openDir → done.error = 0 → .dir done.rval ∉ s.opened) ∧
    (req.type = .close → req.fd = none → done.error ≠ 0) ∧ (req.type = .closeDir → req.dir = none → done.error ≠ 0)))

/-- Requests that the system works on. -/
def State.inFlight (s : State) : List Request :=
  (s.infos.flatMap fun h => h.reqs.filter fun req => h.postedReq = some req.number) ++ s.abandoned

/-- Types of requests with a record of their own. -/
def OnPath : ReqType → Prop
  | .open_ | .openDir | .stat | .lstat | .setStat | .remove | .roots => True
  | _ => False

instance : DecidablePred OnPath
  | .open_ | .openDir | .stat | .lstat | .setStat | .remove | .roots => isTrue trivial
  | .read | .seekRead | .write | .seekWrite | .fstat | .fSetStat | .close | .closeDir | .readDir => isFalse id

def Enabled (s : State) : Event → Prop
  | .command channel c => channel ∉ s.gone ∧ s.infos.length < 2^64 ∧
      match c with
      | .onPath type => OnPath type
      | .atOnce _ files => files.Nodup ∧ ∀ fd ∈ files, .file fd ∉ s.opened
      | _ => True
  | .done number done => ∃ req ∈ s.inFlight, req.number = number ∧ Possible s req done
  | .channelClose channel => channel ∉ s.gone

instance decideEnabled (s : State) : ∀ e, Decidable (Enabled s e)
  | .command channel c => match c with
    | .onPath type => inferInstanceAs (Decidable (channel ∉ s.gone ∧ s.infos.length < 2^64 ∧ OnPath type))
    | .atOnce _ files => inferInstanceAs (Decidable (channel ∉ s.gone ∧ s.infos.length < 2^64 ∧
        files.Nodup ∧ ∀ fd ∈ files, .file fd ∉ s.opened))
    | .close _ | .read _ _ _ | .write _ _ _ | .fstat _ | .fSetStat _ | .readDir _ =>
      inferInstanceAs (Decidable (channel ∉ s.gone ∧ s.infos.length < 2^64 ∧ True))
  | .done number done => inferInstanceAs (Decidable (∃ req ∈ s.inFlight, req.number = number ∧ Possible s req done))
  | .channelClose channel => inferInstanceAs (Decidable (channel ∉ s.gone))

def step (s : State) : Event → Code State
  | .command channel c => command s channel c
  | .done number done => doneIoRequest s number done
  | .channelClose channel => pure (channelCloseListener s channel)

def process : Process State Event where
  enabled := Enabled
  decide := decideEnabled
  step := step

end Tcf.FileSystem
