import Tcf.Base.Process
import Tcf.Base.TokenText

/-! IDs of symbols of ELF files: how they are written, and found again. -/
namespace Tcf.SymbolIds

open TokenText

abbrev Text := List Char

/-- A debug object; nothing else with its ID is in its section. -/
structure ObjectInfo (File : Type) where
  file : File
  sectionIndex : UInt32
  mID : UInt64
  deriving DecidableEq, Repr

structure ElfSection (File : Type) where
  file : File
  index : UInt32
  deriving DecidableEq, Repr

/-- Fields of a symbol that its ID tells. A symbol with `base` has no object and no table, and one without has no length. -/
structure SymbolInfo (File Ctx : Type) where
  symClass : Int8
  obj : Option (ObjectInfo File)
  var : Option (ObjectInfo File)
  ref : Option (ObjectInfo File)
  tbl : Option (ElfSection File)
  ctx : Ctx
  frame : Int32
  index : UInt32
  dimension : UInt32
  cardinal : UInt32
  deriving DecidableEq, Repr

/-- A pseudo symbol is a pointer, an array, a function type or a constant over another one. -/
inductive Symbol (File Ctx : Type) where
  | info (sym : SymbolInfo File Ctx)
  | pseudo (symClass : Int8) (ctx : Ctx) (frame : Int32) (index : UInt32) (length : UInt64) (base : Symbol File Ctx)
  deriving DecidableEq, Repr

/-- Contexts and open files. -/
structure Target (File Ctx : Type) where
  dev : File → UInt64
  ino : File → UInt64
  mtime : File → Int64
  sectionCnt : File → UInt32
  ctxId : Ctx → Text
  stopped : Ctx → Bool
  id2ctx : Text → Option Ctx
  elfOpenInode : Ctx → UInt64 → UInt64 → Int64 → Option File
  findObject : File → UInt32 → UInt64 → Option (ObjectInfo File)

variable {File Ctx : Type} [DecidableEq File] [DecidableEq Ctx]

def stackTopFrame : Int32 := -2

def stackNoFrame : Int32 := -1

def Symbol.ctx : Symbol File Ctx → Ctx
  | .info sym => sym.ctx
  | .pseudo _ ctx _ _ _ _ => ctx

section Write

/-- `sizeof(tmp_buf) - 1` -/
def tmpBufSize : Nat := 255

def tmpAppChar (buf : Text) (ch : Char) : Text := push tmpBufSize buf ch

def tmpAppStr (buf : Text) (ch : Char) (s : Text) : Text := pushAll tmpBufSize (tmpAppChar buf ch) s

def tmpAppHex (buf : Text) (ch : Char) (n : UInt64) : Text := pushAll tmpBufSize (tmpAppChar buf ch) (digits 16 n.toNat [])

/-- `frame` at the start of `symbol2id`; `get_top_frame` fails for a running context. -/
def topFrame (t : Target File Ctx) (ctx : Ctx) (frame : Int32) : Int32 :=
  if frame = stackTopFrame then if t.stopped ctx then 0 else stackTopFrame else frame

def tmpAppFrame (buf : Text) (frame : Int32) : Code Text :=
  if frame ≠ stackTopFrame then do
    require (0 ≤ frame + 3)
    pure (tmpAppHex buf '+' (frame + 3).toInt64.toUInt64)
  else pure buf

def fileOf (sym : SymbolInfo File Ctx) : Option File :=
  match sym.tbl, sym.obj with
  | some tbl, _ => some tbl.file
  | none, some obj => some obj.file
  | none, none => none

def secOf (o : Option (ObjectInfo File)) : UInt32 := match o with
  | some o => o.sectionIndex
  | none => 0

def idOf (o : Option (ObjectInfo File)) : UInt64 := match o with
  | some o => o.mID
  | none => 0

def tmpAppObject (buf : Text) (ch : Char) (sec : UInt32) (id : UInt64) : Text :=
  if sec ≠ 0 then tmpAppHex (tmpAppHex buf ch sec.toUInt64) '.' id else buf

/-- `&` stands for the object itself. -/
def tmpAppRef (buf : Text) (sym : SymbolInfo File Ctx) : Text :=
  if secOf sym.ref = secOf sym.obj ∧ idOf sym.ref = idOf sym.obj then tmpAppChar buf '&'
  else tmpAppObject buf '*' (secOf sym.ref) (idOf sym.ref)

def tableOf (sym : SymbolInfo File Ctx) : UInt32 := (sym.tbl.map ElfSection.index).getD 0

def tmpAppTable (buf : Text) (index : UInt32) : Text := if index ≠ 0 then tmpAppHex buf '-' index.toUInt64 else buf

/-- `symbol2id` without a base. -/
def info2id (t : Target File Ctx) (sym : SymbolInfo File Ctx) : Code Text := do
  let file := fileOf sym
  require (sym.var.map ObjectInfo.file = none ∨ sym.var.map ObjectInfo.file = file)
  let buf := tmpAppHex (tmpAppChar [] '@') 'S' sym.symClass.toInt64.toUInt64
  let buf := tmpAppHex buf '.' ((file.map t.dev).getD 0)
  let buf := tmpAppHex buf '.' ((file.map t.ino).getD 0)
  let buf := tmpAppHex buf '.' ((file.map t.mtime).getD 0).toUInt64
  let buf := tmpAppObject buf '%' (secOf sym.obj) (idOf sym.obj)
  let buf := tmpAppObject buf '^' (secOf sym.var) (idOf sym.var)
  let buf := tmpAppTable (tmpAppRef buf sym) (tableOf sym)
  let buf ← tmpAppFrame buf (topFrame t sym.ctx sym.frame)
  let buf := tmpAppHex buf '.' sym.index.toUInt64
  let buf := tmpAppHex buf '.' sym.dimension.toUInt64
  let buf := tmpAppHex buf '.' sym.cardinal.toUInt64
  pure (tmpAppStr buf '.' (t.ctxId sym.ctx))

def symbol2id (t : Target File Ctx) : Symbol File Ctx → Code Text
  | .info sym => info2id t sym
  | .pseudo symClass ctx frame index length base => do
    require (ctx = base.ctx)
    let baseId ← symbol2id t base
    let buf := tmpAppHex (tmpAppChar [] '@') 'P' symClass.toInt64.toUInt64
    let buf ← tmpAppFrame buf (topFrame t ctx frame)
    let buf := tmpAppHex buf '.' index.toUInt64
    let buf := tmpAppHex buf '.' length
    pure (tmpAppStr buf '.' baseId)

end Write

section Read

def readHex (p : Text) : UInt64 × Text :=
  let (n,p) := readDigits (2^64) 0 p
  (UInt64.ofNat n,p)

/-- `if (*p == ch) p++`, with whether it did. -/
def skipChar (ch : Char) (p : Text) : Bool × Text :=
  match p with
  | c :: rest => if c = ch then (true,rest) else (false,p)
  | [] => (false,[])

def skipDot (p : Text) : Text := (skipChar '.' p).2

/-- A section and an ID after a mark, or 0 for both. -/
def readObject (ch : Char) (p : Text) : UInt32 × UInt64 × Text :=
  match skipChar ch p with
  | (false,p) => (0,0,p)
  | (true,p) =>
    let (sec,p) := readHex p
    let (id,p) := readHex (skipDot p)
    (sec.toUInt32,id,p)

def readRef (objSec : UInt32) (objId : UInt64) (p : Text) : UInt32 × UInt64 × Text :=
  match skipChar '&' p with
  | (true,p) => (objSec,objId,p)
  | (false,p) => readObject '*' p

def readTable (p : Text) : UInt32 × Text :=
  match skipChar '-' p with
  | (true,p) =>
    let (n,p) := readHex p
    (n.toUInt32,p)
  | (false,p) => (0,p)

def readFrame (p : Text) : Int32 × Text :=
  match skipChar '+' p with
  | (true,p) =>
    let (n,p) := readHex p
    (n.toUInt32.toInt32 - 3,p)
  | (false,p) => (stackNoFrame,p)

/-- None is an exception or an error; the outer object is NULL for section 0. -/
def openObject (t : Target File Ctx) (file : File) (sec : UInt32) (id : UInt64) : Option (Option (ObjectInfo File)) :=
  if sec = 0 then some none
  else if t.sectionCnt file ≤ sec then none
  else (t.findObject file sec id).map some

def openTable (t : Target File Ctx) (file : File) (index : UInt32) : Option (Option (ElfSection File)) :=
  if index = 0 then some none else if t.sectionCnt file ≤ index then none else some (some ⟨file,index⟩)

/-- `id2symbol` after `@S` -/
def id2info (t : Target File Ctx) (p : Text) : Option (SymbolInfo File Ctx) :=
  let (symClass,p) := readHex p
  let (dev,p) := readHex (skipDot p)
  let (ino,p) := readHex (skipDot p)
  let (mtime,p) := readHex (skipDot p)
  let (objSec,objId,p) := readObject '%' p
  let (varSec,varId,p) := readObject '^' p
  let (refSec,refId,p) := readRef objSec objId p
  let (tblIndex,p) := readTable p
  let (frame,p) := readFrame p
  let (index,p) := readHex (skipDot p)
  let (dimension,p) := readHex (skipDot p)
  let (cardinal,p) := readHex (skipDot p)
  match t.id2ctx (skipDot p) with
  | none => none
  | some ctx =>
    let sym : SymbolInfo File Ctx := ⟨symClass.toUInt8.toInt8,none,none,none,none,ctx,frame,index.toUInt32,dimension.toUInt32,cardinal.toUInt32⟩
    if dev = 0 ∧ ino = 0 ∧ mtime.toInt64 = 0 then some sym
    else do
      let file ← t.elfOpenInode ctx dev ino mtime.toInt64
      let obj ← openObject t file objSec objId
      let var ← openObject t file varSec varId
      let ref ← openObject t file refSec refId
      let tbl ← openTable t file tblIndex
      some { sym with obj, var, ref, tbl }

/-- Every `@P` is shorter than the text it is in. -/
def readSymbol (t : Target File Ctx) : Nat → Text → Option (Symbol File Ctx)
  | n + 1, '@' :: 'P' :: p =>
    let (symClass,p) := readHex p
    let (frame,p) := readFrame p
    let (index,p) := readHex (skipDot p)
    let (length,p) := readHex (skipDot p)
    (readSymbol t n (skipDot p)).map fun base =>
      .pseudo symClass.toUInt8.toInt8 base.ctx frame index.toUInt32 length base
  | _ + 1, '@' :: 'S' :: p => (id2info t p).map .info
  | _, _ => none

def id2symbol (t : Target File Ctx) (id : Text) : Option (Symbol File Ctx) := readSymbol t (id.length + 1) id

end Read

end Tcf.SymbolIds
