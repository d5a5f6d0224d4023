import Tcf.Base.Process

/-! Addresses of ELF files: where the memory map puts a link-time address at run time, and which
link-time address is found at a run-time address. -/
namespace Tcf.Elf

abbrev Addr := BitVec 64
abbrev Name := List UInt8

/-- `ELF_Section`, with SHF_ALLOC of its flags. -/
structure Section where
  name : Option Name
  alloc : Bool
  offset : Addr
  size : Addr
  addr : Addr
  deriving DecidableEq, Repr

/-- `ELF_PHeader`; `load` is the type PT_LOAD. -/
structure PHeader where
  load : Bool
  offset : Addr
  address : Addr
  fileSize : Addr
  memSize : Addr
  flags : BitVec 32
  deriving DecidableEq, Repr

inductive ElfType where
  | exec
  | dyn
  | other
  deriving DecidableEq, Repr

/-- `ELF_File` without separate debug info. The first section is not used. -/
structure ElfFile where
  name : Name
  dev : Nat
  ino : Nat
  type : ElfType
  sections : List Section
  pheaders : List PHeader
  deriving DecidableEq, Repr

/-- `MemoryRegion` -/
structure Region where
  addr : Addr
  size : Addr
  fileOffs : Addr
  fileSize : Addr
  bss : Bool
  dev : Nat
  ino : Nat
  fileName : Option Name
  sectName : Option Name
  flags : BitVec 32
  deriving DecidableEq, Repr

abbrev FileId := Nat

/-- The memory map of a context: the client's regions, then the target's. Files are opened by name or inode:
`openFile` is `elf_open_memory_region_file`, and `sameFile` the test of `elf_map_to_run_time_address`. -/
structure World where
  regions : List Region
  elf : FileId → ElfFile
  openFile : Region → Option FileId
  sameFile : FileId → Region → Bool

def pfX : BitVec 32 := 1
def pfW : BitVec 32 := 2
def pfR : BitVec 32 := 4
def mmFlagR : BitVec 32 := 1
def mmFlagW : BitVec 32 := 2
def mmFlagX : BitVec 32 := 4

/-- The test on addresses that is made everywhere; `r->addr + r->size` has 64 bits. -/
def covers (r : Region) (addr : Addr) : Bool := r.addr ≤ addr && addr < r.addr + r.size

/-- What `search_regions` sets in all regions that it makes. -/
def regionOf (f : ElfFile) (addr size : Addr) : Region :=
  ⟨addr,size,0,0,false,f.dev,f.ino,some f.name,none,0⟩

/-- A segment of a file that is mapped as it is linked. -/
def segmentRegion (f : ElfFile) (p : PHeader) : Region :=
  { regionOf f p.address p.memSize with
    fileOffs := p.offset
    fileSize := p.fileSize
    bss := p.fileSize = 0 && p.memSize ≠ 0
    flags := (if p.flags &&& pfR ≠ 0 then mmFlagR else 0) ||| (if p.flags &&& pfW ≠ 0 then mmFlagW else 0) |||
      (if p.flags &&& pfX ≠ 0 then mmFlagX else 0) }

/-- The base address of a module that is loaded at `addr`. -/
def baseAddr (f : ElfFile) (addr : Addr) : Addr :=
  match f.pheaders.find? fun p => p.load && p.offset = 0 with
  | some p => addr - p.address
  | none => 0

def moduleRegion (f : ElfFile) (base : Addr) (p : PHeader) : Region :=
  { regionOf f (p.address + base) p.memSize with
    fileOffs := p.offset, fileSize := p.fileSize, flags := mmFlagR ||| mmFlagW ||| mmFlagX }

def sectionRegion (f : ElfFile) (r : Region) (s : Section) : Region :=
  { regionOf f r.addr s.size with
    sectName := r.sectName, flags := if r.flags = 0 then mmFlagR ||| mmFlagW ||| mmFlagX else r.flags }

/-- The regions of a module that meet a range of addresses. -/
def moduleRegions (f : ElfFile) (addr : Addr) (addr0 addr1 : Addr) : List Region :=
  let base := baseAddr f addr
  (f.pheaders.filter fun p => p.load && 0 < p.memSize && p.address + base ≤ addr1 &&
    addr0 ≤ p.address + p.memSize - 1 + base).map (moduleRegion f base)

/-- The loop of `search_regions` for a region of the map. -/
def regionsFor (w : World) (addr0 addr1 : Addr) (r : Region) : List Region :=
  if r.fileName = none then []
  else if r.addr = 0 ∧ r.size = 0 ∧ r.fileOffs = 0 ∧ r.fileSize = 0 ∧ r.sectName = none then
    match w.openFile r with
    | none => []
    | some f => ((w.elf f).pheaders.filter fun p => p.load && p.address ≤ addr1 && addr0 < p.address + p.memSize).map
        (segmentRegion (w.elf f))
  else if r.size = 0 ∧ r.fileSize = 0 ∧ r.sectName = none then
    if r.fileOffs = 0 then
      match w.openFile r with
      | none => []
      | some f => moduleRegions (w.elf f) r.addr addr0 addr1
    else []
  else if r.addr ≤ addr1 ∧ r.size = 0 ∧ r.sectName ≠ none then
    match w.openFile r with
    | none => []
    | some f => ((w.elf f).sections.filter fun s => s.name ≠ none && s.name = r.sectName && addr0 < r.addr + s.size).map
        (sectionRegion (w.elf f) r)
  else if r.addr ≤ addr1 ∧ addr0 < r.addr + r.size then [r]
  else []

/-- `elf_get_map` -/
def elfGetMap (w : World) (addr0 addr1 : Addr) : List Region := w.regions.flatMap (regionsFor w addr0 addr1)

/-- `elf_get_map(ctx, 0, ~(ContextAddress)0, &elf_map)` -/
def fullMap (w : World) : List Region := elfGetMap w 0 (BitVec.allOnes 64)

/-- Segments with less in the file than in memory. -/
def bssSegmentCnt (f : ElfFile) : Nat := (f.pheaders.filter fun x => x.load && x.fileSize < x.memSize).length

/-- The region may only be less than the segment allows. -/
def flagsFit (p : PHeader) (r : Region) : Bool :=
  r.flags = 0 || !((p.flags &&& pfR ≠ 0 && r.flags &&& mmFlagR = 0) || (p.flags &&& pfW ≠ 0 && r.flags &&& mmFlagW = 0) ||
    (p.flags &&& pfX ≠ 0 && r.flags &&& mmFlagX = 0))

def isPHeaderRegion (f : ElfFile) (p : PHeader) (r : Region) : Bool :=
  p.load && r.sectName = none && flagsFit p r &&
    if 0 < r.fileSize then p.offset < r.fileOffs + r.fileSize && r.fileOffs < p.offset + p.fileSize
    else if r.bss then p.fileSize < p.memSize && (bssSegmentCnt f ≤ 1 || r.fileOffs = p.offset + p.fileSize)
    else p.offset < r.fileOffs + r.size && r.fileOffs < p.offset + p.fileSize

/-- The assertion in `is_p_header_region`. -/
theorem bssSegmentCnt_pos {f : ElfFile} {p : PHeader} (member : p ∈ f.pheaders) (load : p.load = true)
    (bss : p.fileSize < p.memSize) : 0 < bssSegmentCnt f := by
  have counted : p ∈ f.pheaders.filter fun x => x.load && x.fileSize < x.memSize :=
    List.mem_filter.mpr ⟨member,by simp [load,bss]⟩
  exact List.length_pos_of_mem counted

/-- A segment is linked at the address. -/
def linkedAt (p : PHeader) (addr : Addr) : Bool := p.address ≤ addr && addr < p.address + p.memSize

/-- Where the region puts an address of the segment. -/
def image (r : Region) (p : PHeader) (addr : Addr) : Addr := addr - p.address + p.offset - r.fileOffs + r.addr

/-- A segment whose address the region has. -/
def claims (f : ElfFile) (r : Region) (addr : Addr) (p : PHeader) : Bool :=
  isPHeaderRegion f p r && linkedAt p addr && covers r (image r p addr)

/-- `strcmp` with a name of a section: NULL is not to be read. -/
def hasName (s : Section) (name : Name) : Code Bool :=
  match s.name with
  | none => .error .fault
  | some n => pure (n = name)

/-- `none` is ERR_INV_ADDRESS. -/
def elfRunTimeAddressInRegion (r : Region) (f : ElfFile) (sec : Option Section) (addr : Addr) : Code (Option Addr) :=
  match r.sectName with
  | none => pure ((f.pheaders.find? (claims f r addr)).map fun p => image r p addr)
  | some name =>
    match sec with
    | some s => do
      let same ← hasName s name
      pure (if same then some (addr - s.addr + r.addr) else none)
    | none =>
      if f.type ≠ .other then
        pure ((f.sections.tail.find? fun s => s.addr ≤ addr && addr < s.addr + s.size && s.name = some name).map
          fun s => addr - s.addr + r.addr)
      else pure none

/-- The loop of `elf_map_to_run_time_address`; the result comes with its region. -/
def runThrough (w : World) (f : FileId) (sec : Option Section) (addr : Addr) : List Region → Code (Option (Region × Addr))
  | [] => pure none
  | r :: rest =>
    if w.sameFile f r then do
      let rt ← elfRunTimeAddressInRegion r (w.elf f) sec addr
      match rt with
      | some rt => pure (some (r,rt))
      | none => runThrough w f sec addr rest
    else runThrough w f sec addr rest

def elfMapToRunTimeAddress (w : World) (f : FileId) (sec : Option Section) (addr : Addr) : Code (Option Addr) := do
  let found ← runThrough w f sec addr (fullMap w)
  match found with
  | some (_,rt) => pure (some rt)
  | none => pure (if (w.elf f).type = .exec then some addr else none)

/-- `find_section_by_address` -/
def findSectionByAddress (f : ElfFile) (addr : Addr) : Option Section :=
  f.sections.tail.find? fun s => s.alloc && s.addr ≤ addr && addr < s.addr + s.size

/-- A file, one of its sections and a link-time address. -/
structure Target where
  file : FileId
  sec : Option Section
  addr : Addr
  deriving DecidableEq, Repr

/-- A segment that has the run-time address in the region's part of the file. -/
def holds (f : ElfFile) (r : Region) (addr : Addr) (p : PHeader) : Bool :=
  isPHeaderRegion f p r && p.offset ≤ addr - r.addr + r.fileOffs && addr - r.addr + r.fileOffs < p.offset + p.memSize

/-- The first section with a name. -/
def findNamed (name : Name) : List Section → Code (Option Section)
  | [] => pure none
  | s :: rest => do
    let same ← hasName s name
    if same then pure (some s) else findNamed name rest

/-- The body of the loop of `elf_map_to_link_time_address`, with `to_dwarf` 0. -/
def linkInRegion (w : World) (r : Region) (addr : Addr) : Code (Option Target) :=
  match w.openFile r with
  | none => pure none
  | some id =>
    let f := w.elf id
    match r.sectName with
    | none =>
      if f.pheaders = [] ∧ f.type = .exec then pure (some ⟨id,findSectionByAddress f addr,addr⟩)
      else pure ((f.pheaders.find? (holds f r addr)).map fun p =>
        let link := addr - r.addr + r.fileOffs - p.offset + p.address
        ⟨id,findSectionByAddress f link,link⟩)
    | some name => do
      let s ← findNamed name f.sections.tail
      pure (s.map fun s => ⟨id,some s,addr - r.addr + s.addr⟩)

def linkLoop (w : World) (addr : Addr) : List Region → Code (Option Target)
  | [] => pure none
  | r :: rest => do
    require (r.addr ≤ addr)
    require (addr < r.addr + r.size)
    let found ← linkInRegion w r addr
    match found with
    | some target => pure (some target)
    | none => linkLoop w addr rest

def elfMapToLinkTimeAddress (w : World) (addr : Addr) : Code (Option Target) := linkLoop w addr (elfGetMap w addr addr)

end Tcf.Elf
