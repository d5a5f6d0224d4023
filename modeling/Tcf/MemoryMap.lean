import Tcf.Base.Process
import Mathlib.Logic.Function.Basic
import Mathlib.Algebra.Order.Ring.Int

/-! The Memory Map service: maps that clients send, and for each memory context the list of the
regions that apply to it. What the context module knows is a parameter that changes in a run. -/
namespace Tcf.MemoryMap

/-- A C string. -/
abbrev Str := List UInt8

abbrev Address := Nat

structure MemoryRegionAttribute where
  name : Str
  value : Str
  deriving DecidableEq, Repr

/-- NULL is `none`. -/
structure MemoryRegion where
  addr : Nat := 0
  size : Nat := 0
  fileOffs : Nat := 0
  bss : Bool := false
  flags : Nat := 0
  fileName : Option Str := none
  sectName : Option Str := none
  query : Option Str := none
  id : Option Str := none
  attrs : List MemoryRegionAttribute := []
  channel : Option Address := none
  deriving DecidableEq, Repr

structure ClientMap where
  id : Str
  map : List MemoryRegion
  channel : Address
  deriving DecidableEq, Repr

/-- What the context module tells: `context_root`, the groups of a context, its names, and whether
a context query selects it. -/
structure Contexts where
  root : List Address
  exited : Address → Bool
  getMemContext : Address → Option Address
  getSymContext : Address → Option Address
  id : Address → Str
  name : Address → Option Str
  fullName : Address → Str
  query : Address → Option Str → Bool

/-- `ContextExtensionMM`, less the target's own map. -/
structure Extension where
  valid : Bool := false
  clientMap : List MemoryRegion := []

/-- `changed` are the events that were sent, `mappingChanged` the calls of the listeners. -/
structure State where
  contexts : Contexts
  clientMapList : List ClientMap
  ext : Address → Extension
  changed : List Str
  mappingChanged : List Address

/-! Maps of a client. -/

/-- A member of the JSON object for a region, as its reader returns it. -/
inductive Member where
  | addr (n : Nat)
  | size (n : Nat)
  | offs (n : Nat)
  | bss (b : Bool)
  | flags (n : Int)
  | fileName (s : Option Str)
  | sectionName (s : Option Str)
  | contextQuery (s : Option Str)
  | id (s : Option Str)
  | other (name value : Str)
  deriving DecidableEq, Repr

def readMapAttribute (r : MemoryRegion) : Member → MemoryRegion
  | .addr n => { r with addr := n % 2^64 }
  | .size n => { r with size := n % 2^64 }
  | .offs n => { r with fileOffs := n % 2^64 }
  | .bss b => { r with bss := b }
  | .flags n => { r with flags := (n % 2^32).toNat }
  | .fileName s => { r with fileName := s }
  | .sectionName s => { r with sectName := s }
  | .contextQuery s => { r with query := s }
  | .id s => { r with id := s }
  | .other name value => { r with attrs := ⟨name,value⟩ :: r.attrs }

def readMapItem (members : List Member) : MemoryRegion := members.foldl readMapAttribute {}

/-- `char id[256]` -/
def readId (id : Str) : Str := (id.take 255).takeWhile (· ≠ 0)

/-- The list of maps after a set command. -/
def setMap (maps : List ClientMap) (c : Address) (id : Str) (regions : List MemoryRegion) : List ClientMap :=
  match maps.findIdx? fun m => m.channel = c ∧ m.id = id with
  | some i => if regions.length > 0 then maps.modify i ({ · with map := regions }) else maps.eraseIdx i
  | none => if regions.length > 0 then maps ++ [⟨id,regions,c⟩] else maps

/-! Maps of a context. -/

/-- `find_maps`. The links it makes are taken apart again before the caller returns. -/
def findMaps (contexts : Contexts) (maps : List ClientMap) (ctx : Address) : List ClientMap :=
  maps.filter fun m => m.id = [] ∨ m.id = contexts.id ctx ∨ m.id = contexts.fullName ctx ∨ contexts.name ctx = some m.id

/-- The loop over the attributes of two regions. -/
def sameAttrs : List MemoryRegionAttribute → List MemoryRegionAttribute → Bool
  | [], [] => true
  | ax :: xs, ay :: ys => ax.name = ay.name && ax.value = ay.value && sameAttrs xs ys
  | _, _ => false

def sameRegion (y x : MemoryRegion) (channel : Address) : Bool :=
  y.addr = x.addr && y.size = x.size && y.fileOffs = x.fileOffs && y.bss = x.bss && y.flags = x.flags &&
    y.fileName = x.fileName && y.sectName = x.sectName && y.query = x.query && y.channel = some channel &&
    sameAttrs x.attrs y.attrs

/-- One round of the comparison, with `equ` and `k`. -/
def compareRegion (applies : MemoryRegion → Bool) (clientMap : List MemoryRegion) (channel : Address) (st : Bool × Nat)
    (x : MemoryRegion) : Bool × Nat :=
  if st.1 && applies x then
    match clientMap[st.2]? with
    | none => (false,st.2)
    | some y => (sameRegion y x channel,st.2 + 1)
  else st

/-- Whether the cached map is up to date, as far as the code looks. -/
def compareMaps (applies : MemoryRegion → Bool) (clientMap : List MemoryRegion) (maps : List ClientMap) : Bool :=
  let (equ,k) := maps.foldl (fun st m => m.map.foldl (compareRegion applies clientMap m.channel) st) (true,0)
  equ && !(decide (k < clientMap.length))

/-- The regions that apply, each with the channel of its map. -/
def collect (applies : MemoryRegion → Bool) (maps : List ClientMap) : List MemoryRegion :=
  maps.flatMap fun m => (m.map.filter applies).map ({ · with channel := some m.channel })

/-- `event_memory_map_changed` -/
def eventMemoryMapChanged (s : State) (ctx : Address) : State :=
  if s.contexts.exited ctx = true ∨ (s.ext ctx).valid = false ∨ s.contexts.getMemContext ctx ≠ some ctx then s
  else { s with
    ext := Function.update s.ext ctx { s.ext ctx with valid := false }
    changed := s.changed ++ [s.contexts.id ctx] }

def memoryMapEventMappingChanged (s : State) (ctx : Address) : Code State := do
  require (s.contexts.getMemContext ctx = some ctx)
  let s := eventMemoryMapChanged s ctx
  pure { s with mappingChanged := s.mappingChanged ++ [ctx] }

def State.setClientMap (s : State) (ctx : Address) (map : List MemoryRegion) : State :=
  { s with ext := Function.update s.ext ctx { s.ext ctx with clientMap := map } }

def updateContextClientMap (s : State) (ctx : Address) : Code State :=
  match s.contexts.getSymContext ctx with
  | none => pure s
  | some syms => do
    require (s.contexts.getMemContext ctx = some ctx)
    let maps := findMaps s.contexts s.clientMapList syms
    let applies := fun x : MemoryRegion => s.contexts.query ctx x.query
    if compareMaps applies (s.ext ctx).clientMap maps = true then pure s
    else memoryMapEventMappingChanged (s.setClientMap ctx (collect applies maps)) ctx

/-- Memory contexts that did not exit. -/
def Contexts.Live (contexts : Contexts) (ctx : Address) : Prop :=
  contexts.exited ctx = false ∧ contexts.getMemContext ctx = some ctx

instance (contexts : Contexts) (ctx : Address) : Decidable (contexts.Live ctx) := inferInstanceAs (Decidable (_ ∧ _))

/-- A round of the loop over all contexts, which is also all of `event_context_changed`. -/
def updateLive (s : State) (ctx : Address) : Code State :=
  if s.contexts.Live ctx then updateContextClientMap s ctx else pure s

def updateAllContextClientMaps (s : State) : Code State := s.contexts.root.foldlM updateLive s

/-! Operations. -/

def commandSet (s : State) (c : Address) (id : Str) (items : List (List Member)) : Code State :=
  let regions := items.map readMapItem
  let known := s.clientMapList.any fun m => m.channel = c ∧ m.id = readId id
  let s := { s with clientMapList := setMap s.clientMapList c (readId id) regions }
  if regions.length > 0 ∨ known = true then updateAllContextClientMaps s else pure s

def channelCloseListener (s : State) (c : Address) : Code State :=
  let notify := s.clientMapList.any fun m => m.channel = c
  let s := { s with clientMapList := s.clientMapList.filter fun m => m.channel ≠ c }
  if notify = true then updateAllContextClientMaps s else pure s

/-- `context_event_listener` calls; the service listens to those that have a body here. -/
inductive ContextEvent where
  | created (ctx : Address)
  | changed (ctx : Address)
  | disposed (ctx : Address)
  | other
  deriving DecidableEq, Repr

/-- The extension of a new context is zeroed memory. -/
def contextEvent (s : State) : ContextEvent → Code State
  | .created ctx => updateLive { s with ext := Function.update s.ext ctx {} } ctx
  | .changed ctx => updateLive s ctx
  | .disposed ctx => pure (s.setClientMap ctx [])
  | .other => pure s

/-- `get` is `memory_map_get`, which reads the target's map. -/
inductive Event where
  | set (c : Address) (id : Str) (items : List (List Member))
  | close (c : Address)
  | context (next : Contexts) (event : ContextEvent)
  | get (ctx : Address) (valid : Bool)

def service : Process State Event where
  enabled _ _ := True
  decide _ _ := inferInstance
  step s
    | .set c id items => commandSet s c id items
    | .close c => channelCloseListener s c
    | .context next event => contextEvent { s with contexts := next } event
    | .get ctx valid => pure { s with ext := Function.update s.ext ctx { s.ext ctx with valid } }

/-- The agent starts without contexts. -/
def State.initial (contexts : Contexts) : State := ⟨{ contexts with root := [] },[],fun _ => {},[],[]⟩

end Tcf.MemoryMap
