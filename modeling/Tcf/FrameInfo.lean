import Tcf.Base.Sorting
import Tcf.FrameRules

/-! The sections of frame info: their entries, the search index over them, and the row of an entry for an address. -/
namespace Tcf.Frames

open Dwarf

section Entries

variable (s : FrameSection) (fuel : Nat)

/-- Not for a call that is undefined or does not end. -/
def Stop.raised : Stop → Bool
  | .failure .undefined => false
  | .stuck => false
  | _ => true

/-- `set_trap`, with what is done when an exception is caught. -/
def trap (body caught : Lookup Unit) : Lookup Unit := fun w =>
  match body w with
  | .ok a w => .ok a w
  | .error stop w => if stop.raised then caught w else .error stop w

def modifyRules (f : StackFrameRules → StackFrameRules) : Lookup Unit := modify fun w => { w with rules := f w.rules }

/-- A length, and whether it has 64 bits. -/
def readLength : Lookup (Nat × Bool) := do
  let length ← liftRead (dioReadU4 (readSection s))
  if length = 2 ^ 32 - 1 then do
    let length ← liftRead (dioReadU8 (readSection s))
    pure (length,true)
  else pure (length,false)

def invalid (message : String) : Lookup α := exception (.failure (.invDwarf message))

/-- The loop over the letters of an augmentation. -/
def readAugmentation (text : Option Nat) : List UInt8 → Lookup Unit
  | [] => pure ()
  | letter :: later => do
    if letter = 0x4c then do
      let _ ← liftRead dioReadU1
      readAugmentation text later
    else if letter = 0x50 then do
      let encoding ← liftRead dioReadU1
      let addrPos ← getPos
      let w ← get
      trap (do let _ ← readFrameDataPointer s encoding text false 0) (setPos s ((addrPos + w.rules.addressSize) % 2 ^ 64))
      readAugmentation text later
    else if letter = 0x52 then do
      let encoding ← liftRead dioReadU1
      modifyRules fun rules => { rules with addrEncoding := encoding }
      readAugmentation text later
    else readAugmentation text later

/-- `cie_eh_data` -/
def readEhData (aug : Option (List UInt8)) : Lookup Unit :=
  if aug = some [0x65,0x68] then do
    let _ ← readAddressX s (if s.elf64 then 8 else 4)
    pure ()
  else pure ()

/-- The data behind the length of an augmentation -/
def readAugmentationData (text : Option Nat) (aug : Option (List UInt8)) : Lookup Unit :=
  match aug with
  | some (0x7a :: letters) => do
    let augLength ← uleb
    let augPos ← getPos
    readAugmentation s text letters
    setPos s ((augPos + augLength) % 2 ^ 64)
  | _ => pure ()

/-- From the version of a CIE to its augmentation data. -/
def readCieHeader (text : Option Nat) : Lookup Unit := do
  let version ← liftRead dioReadU1
  if version ≠ 1 ∧ version ≠ 3 ∧ version ≠ 4 then invalid "Unsupported version of Call Frame Information"
  else do
    let aug ← liftRead dioReadString
    modifyRules fun rules => { rules with cieAug := aug }
    readEhData s aug
    let addressSize ← (if version ≥ 4 then liftRead dioReadU1 else pure (if s.elf64 then 8 else 4) : Lookup Nat)
    let segmentSize ← (if version ≥ 4 then liftRead dioReadU1 else pure 0 : Lookup Nat)
    if segmentSize ≠ 0 then invalid "Unsupported Call Frame Information: segment size != 0"
    else do
      let codeAlignment ← uleb
      let dataAlignment ← sleb
      let returnAddressRegister ← uleb
      modifyRules fun rules => { rules with
        addressSize := addressSize
        codeAlignment := codeAlignment
        dataAlignment := dataAlignment
        returnAddressRegister := returnAddressRegister
        addrEncoding := 0 }
      readAugmentationData s text aug

/-- The loop over the instructions of a CIE -/
def execUntil (text : Option Nat) (stop : Nat) : Nat → Lookup Unit
  | 0 => exception .stuck
  | rounds+1 => do
    let pos ← getPos
    if pos < stop then do
      execStackFrameInstruction s text 0
      execUntil text stop rounds
    else pure ()

/-- The instructions of a CIE, from empty registers on. -/
def execCie (text : Option Nat) (cieEnd : Nat) : Lookup Unit := do
  modify fun w => { w with cieRegs := noRegisters, frameRegs := noRegisters, regsStack := [] }
  execUntil s text cieEnd fuel
  modify fun w => { w with cieRegs := copyRegisterRules s.machine w.rules.returnAddressRegister w.frameRegs }

/-- `read_frame_cie` -/
def readFrameCie (text : Option Nat) (pos : Nat) : Lookup Unit := do
  let saved ← getPos
  modifyRules fun rules => { rules with ciePos := pos }
  if pos ≥ s.data.length then invalid "Invalid CIE pointer in FDE"
  else do
    setPos s pos
    let (cieLength,dwarf64) ← readLength s
    let start ← getPos
    skip s (if dwarf64 then 8 else 4)
    readCieHeader s text
    execCie s fuel text ((start + cieLength) % 2 ^ 64)
    setPos s saved

/-- The reference to a CIE behind the length, and whether the entry is an FDE. -/
def readCieRef (dwarf64 : Bool) : Lookup (Nat × Bool) := do
  let ref ← (if dwarf64 then liftRead (dioReadU8 (readSection s)) else liftRead (dioReadU4 (readSection s)) : Lookup Nat)
  pure (ref,decide (ref ≠ (if s.ehFrame then 0 else if dwarf64 then 2 ^ 64 - 1 else 2 ^ 32 - 1)))

/-- The CIE of an FDE is read, unless it is the one that was read last. -/
def enterCie (text : Option Nat) (refPos ref : Nat) : Lookup Unit := do
  let pos := if s.ehFrame then (refPos + (2 ^ 64 - ref)) % 2 ^ 64 else ref
  let w ← get
  if pos ≠ w.rules.ciePos then readFrameCie s fuel text pos else pure ()

/-- The loop over the instructions of an FDE. The result is `location0`. -/
def execTo (text : Option Nat) (addr range ip fdeEnd : Nat) : Nat → Nat → Lookup Nat
  | 0, _ => exception .stuck
  | rounds+1, location0 => do
    let pos ← getPos
    if pos ≥ fdeEnd then do
      modifyRules fun rules => { rules with location := (addr + range) % 2 ^ 64 }
      pure location0
    else do
      execStackFrameInstruction s text addr
      let w ← get
      if w.rules.location > ip then pure location0 else execTo text addr range ip fdeEnd rounds w.rules.location

/-- The instructions of an FDE, from the rules of the CIE on. -/
def execFde (text : Option Nat) (addr range ip fdeEnd : Nat) : Lookup Nat := do
  modify fun w => { w with
    frameRegs := copyRegisterRules s.machine w.rules.returnAddressRegister w.cieRegs
    rules.location := addr
    regsStack := [] }
  execTo s text addr range ip fdeEnd fuel addr

/-- `dwarf_stack_trace_addr` and `dwarf_stack_trace_size`, and whether the commands are to be generated. -/
structure FrameRow where
  addr : Nat
  size : Nat
  commands : Bool
  deriving DecidableEq, Repr

/-- `fde_aug_length` and `fde_aug_data` -/
def skipAugmentation (aug : Option (List UInt8)) : Lookup Unit :=
  match aug with
  | some (0x7a :: _) => do
    let length ← uleb
    skip s length
  | _ => pure ()

/-- `read_frame_fde` up to the commands. Its assertions are about what the index says. -/
def readFrameRow (text : Option Nat) (ip fdePos : Nat) : Lookup FrameRow := do
  enterSection s fdePos
  let (fdeLength,dwarf64) ← readLength s
  let refPos ← getPos
  let (ref,fde) ← readCieRef s dwarf64
  if (fdeLength = 0 ∧ dwarf64 = false) ∨ fde = false then exception (.failure .undefined)
  else do
    enterCie s fuel text refPos ref
    let w ← get
    let (addr,_) ← readFrameDataPointer s w.rules.addrEncoding text true 0
    let (range,_) ← readFrameDataPointer s w.rules.addrEncoding text false 0
    if addr ≤ ip ∧ (addr + range) % 2 ^ 64 > ip then do
      skipAugmentation s w.rules.cieAug
      let location0 ← execFde s fuel text addr range ip ((refPos + fdeLength) % 2 ^ 64)
      let w ← get
      -- GCC generates invalid frame info for ARM function epilogue.
      pure ⟨location0,(w.rules.location + (2 ^ 64 - location0)) % 2 ^ 64,decide ¬(s.machine = .arm ∧ (ip + 4) % 2 ^ 64 = (addr + range) % 2 ^ 64)⟩
    else exception (.failure .undefined)

end Entries

section Index

variable (s : FrameSection) (fuel rounds : Nat)

/-- What the loop does with an entry, before a place in the index is reserved for it. -/
inductive Head where
  | again
  | entry (fdePos fdeEnd : Nat) (fde : Bool)
  deriving DecidableEq, Repr

/-- A round of the loop up to the place in the index. -/
def readHead (text : Option Nat) : Lookup Head := do
  let fdePos ← getPos
  let (fdeLength,dwarf64) ← readLength s
  if fdeLength = 0 ∧ dwarf64 = false then pure .again
  else do
    let refPos ← getPos
    let fdeEnd := (refPos + fdeLength) % 2 ^ 64
    if fdeEnd > s.data.length then
      -- Workaround for sections with invalid alignment.
      if s.alignment > 1 ∧ fdePos % s.alignment ≠ 0 then do
        setPos s ((fdePos + (s.alignment - fdePos % s.alignment)) % 2 ^ 64)
        pure .again
      else invalid "Invalid length in FDE"
    else do
      let (ref,fde) ← readCieRef s dwarf64
      (if fde then enterCie s fuel text refPos ref else pure () : Lookup Unit)
      pure (.entry fdePos fdeEnd fde)

def emptyRange : FrameInfoRange := ⟨0,0,0,0⟩

/-- A place in the array, which is there from now on. -/
def reserved (w : World) : World := { w with index.mFrameInfoRanges := some (w.index.mFrameInfoRanges.getD [] ++ [emptyRange]) }

def reserve : Lookup Unit := modify reserved

def fillRange (f : FrameInfoRange → FrameInfoRange) : Lookup Unit := modify fun w =>
  { w with index.mFrameInfoRanges := w.index.mFrameInfoRanges.map fun ranges => ranges.modify (ranges.length - 1) f }

def fillSection : Option Nat → Lookup Unit
  | some sec => do
    fillRange fun range => { range with mSection := sec }
    modify fun w => { w with index.mRelocatable := true }
  | none => pure ()

/-- The last entry of the array is read. -/
def readRange (text : Option Nat) (fdePos : Nat) : Lookup Unit := do
  let w ← get
  let (addr,sec) ← readFrameDataPointer s w.rules.addrEncoding text true 0
  fillRange fun range => { range with mAddr := addr }
  let (size,_) ← readFrameDataPointer s w.rules.addrEncoding text false 0
  fillRange fun range => { range with mSize := size }
  fillSection sec
  fillRange fun range => { range with mOffset := fdePos }

/-- An entry of the index -/
def addRange (text : Option Nat) (fdePos : Nat) : Lookup Unit := do
  reserve
  readRange s text fdePos

/-- The loop of `create_search_index` -/
def indexLoop (text : Option Nat) : Nat → Lookup Unit
  | 0 => exception .stuck
  | rounds+1 => do
    let pos ← getPos
    if pos < s.data.length then do
      let head ← readHead s fuel text
      match head with
      | .again => indexLoop text rounds
      | .entry fdePos fdeEnd fde => do
        (if fde then addRange s text fdePos else pure () : Lookup Unit)
        setPos s fdeEnd
        indexLoop text rounds
    else pure ()

def cmpFrameInfoRanges (x y : FrameInfoRange) : Ordering := (compare x.mSection y.mSection).then (compare x.mAddr y.mAddr)

def sortRanges (ranges : List FrameInfoRange) : List FrameInfoRange := ranges.mergeSort fun x y => (cmpFrameInfoRanges x y).isLE

def createSearchIndex (text : Option Nat) : Lookup Unit := do
  enterSection s 0
  indexLoop s fuel text rounds
  modify fun w => { w with index.mFrameInfoRanges := w.index.mFrameInfoRanges.map sortRanges }

/-- What `memset` and the first assignments leave in `rules`. -/
def startRules : StackFrameRules := ⟨0,0,0,2 ^ 64 - 1,none,0,0,0⟩

/-- `read_frame_info_section` up to the search -/
def ensureIndex (text : Option Nat) : Lookup Unit := do
  modifyRules fun _ => startRules
  let w ← get
  if w.index.mFrameInfoRanges = none then createSearchIndex s fuel rounds text else pure ()

/-- The loop of the search. The result is the place of the FDE. -/
def searchLoop (ranges : List FrameInfoRange) (secIdx ip : Nat) : Nat → Nat → Nat → Option Nat
  | 0, _, _ => none
  | rounds+1, l, h =>
    if l < h then
      match ranges[(l + h) / 2]? with
      | none => none
      | some range =>
        if secIdx < range.mSection then searchLoop ranges secIdx ip rounds l ((l + h) / 2)
        else if secIdx > range.mSection then searchLoop ranges secIdx ip rounds ((l + h) / 2 + 1) h
        else if range.mAddr > ip then searchLoop ranges secIdx ip rounds l ((l + h) / 2)
        else if (range.mAddr + range.mSize) % 2 ^ 64 ≤ ip then searchLoop ranges secIdx ip rounds ((l + h) / 2 + 1) h
        else some range.mOffset
    else none

/-- The text section of a lookup, by index and address. -/
structure TextSection where
  index : Nat
  addr : Nat
  deriving DecidableEq, Repr

/-- `read_frame_info_section` up to the commands: the row of the entry that is found. -/
def readFrameInfoSection (text : Option TextSection) (ip : Nat) : Lookup (Option FrameRow) := do
  ensureIndex s fuel rounds (text.map TextSection.addr)
  let w ← get
  let ranges := w.index.mFrameInfoRanges.getD []
  let secIdx := if w.index.mRelocatable then (text.map TextSection.index).getD 0 else 0
  match searchLoop ranges secIdx ip ranges.length 0 ranges.length with
  | none => pure none
  | some fdePos => do
    let row ← readFrameRow s fuel (text.map TextSection.addr) ip fdePos
    pure (some row)

end Index

end Tcf.Frames
