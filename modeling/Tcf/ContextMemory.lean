import Mathlib.Data.List.Basic
import Mathlib.Algebra.Order.Ring.Int

/-! Memory blocks that the server keeps for a context of a peer, and the reads that they serve.
An error report is a number, 0 for none; `errno` has the number of the report it was set by. -/
namespace Tcf.ContextMemory

section Blocks

structure ErrorAddress where
  addr : UInt64
  size : UInt64
  stat : Int
  deriving DecidableEq, Repr

/-- `cb_check_memory_error_struct` -/
def cbCheckMemoryErrorStruct (error : ErrorAddress) : String × Int → ErrorAddress
  | ("addr", n) => { error with addr := UInt64.ofInt n }
  | ("size", n) => { error with size := UInt64.ofInt n }
  | ("stat", n) => { error with stat := n }
  | _ => error

/-- `cb_check_memory_error_array`; the fields that an element leaves out are 0. -/
def cbCheckMemoryErrorArray (fields : List (String × Int)) : ErrorAddress :=
  fields.foldl cbCheckMemoryErrorStruct ⟨0,0,0⟩

/-- The data of a reply; the reader does not get past more bytes than the block has. -/
structure Data (size : UInt64) where
  bytes : List UInt8
  fits : bytes.length ≤ size.toNat

/-- What the handler of `Memory.get` gets. -/
inductive Reply (size : UInt64) where
  /-- The channel reports an error. -/
  | failed (error : Nat)
  | answer (data : Data size) (error : Nat) (ranges : List (List (String × Int)))
  /-- Reading raises an exception behind some of the data and some of the ranges. -/
  | broken (data : Data size) (ranges : List (List (String × Int))) (error : Nat)

/-- A block that has been filled -/
structure Filled (size : UInt64) where
  data : Data size
  error : Nat
  errorsAddress : List ErrorAddress

/-- `validate_memory_cache` -/
def validateMemoryCache {size : UInt64} : Reply size → Filled size
  | .failed error => ⟨⟨[],Nat.zero_le _⟩,error,[]⟩
  | .answer data error ranges => ⟨data,error,ranges.map cbCheckMemoryErrorArray⟩
  | .broken data ranges error => ⟨data,error,ranges.map cbCheckMemoryErrorArray⟩

/-- The buffer of a block; what no reply has written is unknown. -/
def Filled.buf {size : UInt64} (m : Filled size) : List (Option UInt8) :=
  m.data.bytes.map some ++ List.replicate (size.toNat - m.data.bytes.length) none

/-- `MemoryCache`; without a reply the command is pending. -/
structure MemoryCache where
  addr : UInt64
  size : UInt64
  reply : Option (Reply size)

/-- The sums have 64 bits. -/
def within (address size addr limit : UInt64) : Bool := addr ≤ address ∧ address + size ≤ addr + limit

end Blocks

section Reads

structure Peer where
  closed : Bool
  rcDone : Bool
  deriving DecidableEq, Repr

inductive Outcome where
  /-- 0 is returned. -/
  | ok (buf : List (Option UInt8))
  /-- -1 is returned. -/
  | failed (errno : Nat)
  /-- Memory outside of the buffer of a block is copied. -/
  | outside
  /-- The caller waits for a cache. -/
  | waits
  /-- A command is sent for a new block. -/
  | requested (m : MemoryCache)
  | closed

/-- An error range without a status is taken for a part that was read. -/
def Filled.valid {size : UInt64} (m : Filled size) (address length : UInt64) : Bool :=
  m.error ≠ 0 ∧ m.errorsAddress.any fun e => e.stat = 0 ∧ within address length e.addr e.size

/-- The block that a read is served from -/
def findBlock (blocks : List MemoryCache) (address size : UInt64) : Option MemoryCache :=
  blocks.find? fun m => within address size m.addr m.size

/-- What a filled block serves -/
def Filled.serve {limit : UInt64} (m : Filled limit) (addr address size : UInt64) (errno : Nat) : Outcome :=
  let offset := (address - addr).toNat
  if offset + size.toNat ≤ limit.toNat then
    let errno := if m.valid address size then errno else m.error
    if errno = 0 then .ok ((m.buf.drop offset).take size.toNat) else .failed errno
  else .outside

/-- `context_read_mem` -/
def contextReadMem (peer : Peer) (blocks : List MemoryCache) (address size : UInt64) (errno : Nat) : Outcome :=
  if peer.closed then .closed
  else if ¬peer.rcDone then .waits
  else
    match findBlock blocks address size with
    | none => .requested ⟨address,size,none⟩
    | some m =>
      match m.reply with
      | none => .waits
      | some reply => (validateMemoryCache reply).serve m.addr address size errno

end Reads

section Exactness

variable {limit : UInt64}

/-- The byte at an address came with the reply. -/
def Filled.Delivered (m : Filled limit) (addr b : UInt64) : Prop := (b - addr).toNat < m.data.bytes.length

/-- A failed range has the address. -/
def Filled.Failing (m : Filled limit) (b : UInt64) : Prop := ∃ e ∈ m.errorsAddress, e.stat ≠ 0 ∧ b - e.addr < e.size

/-- The bytes of a reply for a range -/
def Filled.contents (m : Filled limit) (addr address size : UInt64) : List (Option UInt8) :=
  (List.range size.toNat).map fun k => m.data.bytes[(address + UInt64.ofNat k - addr).toNat]?

/-- 0 only with the bytes of the reply, -1 only with the error of the block. -/
def Filled.Exact (m : Filled limit) (addr address size : UInt64) : Outcome → Prop
  | .ok buf => (∀ k < size.toNat, m.Delivered addr (address + UInt64.ofNat k) ∧ ¬m.Failing (address + UInt64.ofNat k)) ∧
      buf = m.contents addr address size
  | .failed errno => errno = m.error
  | .outside => False
  | _ => True

/-- Two ranges of the address space, which has no end, have no address in common. -/
def Apart (address size : UInt64) (e : ErrorAddress) : Prop :=
  e.size = 0 ∨ size ≤ e.addr - address ∧ e.size ≤ address - e.addr

/-- All of a range was delivered, and none of it failed. -/
def Filled.Clean (m : Filled limit) (addr address size : UInt64) : Prop :=
  size = 0 ∨ (address - addr).toNat + size.toNat ≤ m.data.bytes.length ∧
    ∀ e ∈ m.errorsAddress, e.stat ≠ 0 → Apart address size e

/-- The range is inside the block; the code is not to return 0 unless it is clean, and leaves `errno` alone only where it
is 0 or has the error of the block. -/
def Filled.Fits (m : Filled limit) (addr address size : UInt64) (errno : Nat) : Prop :=
  (address - addr).toNat + size.toNat ≤ limit.toNat ∧
    if m.valid address size then (errno = 0 → m.Clean addr address size) ∧ (errno = 0 ∨ errno = m.error)
    else m.error = 0 → m.Clean addr address size

theorem apart_numbers {a n b k : Nat} (a64 : a < 2 ^ 64) (n64 : n < 2 ^ 64) (b64 : b < 2 ^ 64) (some : 0 < n) :
    (∀ i < n, k ≤ (2 ^ 64 - b + (a + i) % 2 ^ 64) % 2 ^ 64) ↔
      k = 0 ∨ n ≤ (2 ^ 64 - a + b) % 2 ^ 64 ∧ k ≤ (2 ^ 64 - b + a) % 2 ^ 64 := by
  constructor
  · intro apart
    have first := apart 0 some
    by_cases empty : k = 0
    · exact Or.inl empty
    · refine Or.inr ⟨?_,by omega⟩
      by_contra meets
      -- the second range begins inside the first
      have second := apart ((2 ^ 64 - a + b) % 2 ^ 64) (by omega)
      omega
  · rintro (rfl | ⟨before,behind⟩) i inside
    · exact Nat.zero_le _
    · omega

theorem apart_iff (address size : UInt64) (e : ErrorAddress) (some : size ≠ 0) :
    (∀ k < size.toNat, ¬address + UInt64.ofNat k - e.addr < e.size) ↔ Apart address size e := by
  have positive : 0 < size.toNat := Nat.pos_of_ne_zero fun zero => some (UInt64.toNat_inj.mp zero)
  have numbers := apart_numbers (k := e.size.toNat) address.toNat_lt size.toNat_lt e.addr.toNat_lt positive
  have empty : e.size = 0 ↔ e.size.toNat = 0 := by rw [← UInt64.toNat_inj]; rfl
  rw [Apart,empty,UInt64.le_iff_toNat_le,UInt64.le_iff_toNat_le,UInt64.toNat_sub,UInt64.toNat_sub,← numbers]
  refine forall_congr' fun k => forall_congr' fun below => ?_
  rw [UInt64.lt_iff_toNat_lt,Nat.not_lt,UInt64.toNat_sub,UInt64.toNat_add,UInt64.toNat_ofNat',
    Nat.mod_eq_of_lt (show k < 2 ^ 64 from Nat.lt_trans below size.toNat_lt)]

/-- The place of a byte in the block that serves it -/
theorem place {addr address : UInt64} {k : Nat} (inside : (address - addr).toNat + k < 2 ^ 64) :
    (address + UInt64.ofNat k - addr).toNat = (address - addr).toNat + k := by
  have a64 := address.toNat_lt
  have b64 := addr.toNat_lt
  simp only [UInt64.toNat_sub,UInt64.toNat_add,UInt64.toNat_ofNat'] at *
  omega

theorem clean_iff {m : Filled limit} {addr address size : UInt64} (inside : (address - addr).toNat + size.toNat ≤ limit.toNat) :
    (∀ k < size.toNat, m.Delivered addr (address + UInt64.ofNat k) ∧ ¬m.Failing (address + UInt64.ofNat k)) ↔
      m.Clean addr address size := by
  have bounded := limit.toNat_lt
  by_cases empty : size = 0
  · subst empty
    exact ⟨fun _ => Or.inl rfl,fun _ k below => absurd below (Nat.not_lt_zero k)⟩
  · have positive : 0 < size.toNat := Nat.pos_of_ne_zero fun zero => empty (UInt64.toNat_inj.mp zero)
    simp only [Filled.Clean,empty,false_or]
    constructor
    · intro clean
      refine ⟨?_,fun e member failing => ?_⟩
      · have last := (clean (size.toNat - 1) (by omega)).1
        rw [Filled.Delivered,place (by omega)] at last
        omega
      · refine (apart_iff address size e empty).mp fun k below meets => ?_
        exact (clean k below).2 ⟨e,member,failing,meets⟩
    · rintro ⟨delivered,apart⟩ k below
      constructor
      · rw [Filled.Delivered,place (by omega)]
        omega
      · rintro ⟨e,member,failing,meets⟩
        exact (apart_iff address size e empty).mpr (apart e member failing) k below meets

/-- Where all was delivered, the buffer has the bytes of the reply. -/
theorem buf_contents {m : Filled limit} {addr address size : UInt64} (inside : (address - addr).toNat + size.toNat ≤ limit.toNat)
    (clean : m.Clean addr address size) :
    (m.buf.drop (address - addr).toNat).take size.toNat = m.contents addr address size := by
  have bounded := limit.toNat_lt
  rcases clean with rfl | ⟨delivered,_⟩
  · simp [Filled.contents]
  · apply List.ext_getElem?
    intro k
    rw [List.getElem?_take,List.getElem?_drop,Filled.contents,List.getElem?_map]
    split
    · rename_i below
      have there : (address - addr).toNat + k < m.data.bytes.length := by omega
      rw [List.getElem?_range below,Option.map_some,place (by omega),Filled.buf,
        List.getElem?_append_left (by rwa [List.length_map]),List.getElem?_map,List.getElem?_eq_getElem there]
      rfl
    · rename_i beyond
      rw [List.getElem?_eq_none (by simpa using beyond)]
      rfl

/-- A block serves a read exactly where it fits. -/
theorem serve_exact (m : Filled limit) (addr address size : UInt64) (errno : Nat) :
    m.Exact addr address size (m.serve addr address size errno) ↔ m.Fits addr address size errno := by
  by_cases inside : (address - addr).toNat + size.toNat ≤ limit.toNat
  · simp only [Filled.serve,Filled.Fits,inside,if_true,true_and]
    have returned : m.Exact addr address size (.ok ((m.buf.drop (address - addr).toNat).take size.toNat)) ↔
        m.Clean addr address size := by
      simp only [Filled.Exact,clean_iff inside]
      exact ⟨fun exact => exact.1,fun clean => ⟨clean,buf_contents inside clean⟩⟩
    cases valid : m.valid address size with
    | true =>
      by_cases zero : errno = 0
      · simp only [zero,if_true,returned,true_or,and_true,true_implies]
      · simp [zero,Filled.Exact]
    | false =>
      by_cases zero : m.error = 0
      · simp [zero,returned]
      · simp [zero,Filled.Exact]
  · simp [Filled.serve,Filled.Fits,Filled.Exact,inside]

/-- A read that a filled block serves is exact. -/
def Served (peer : Peer) (blocks : List MemoryCache) (address size : UInt64) (errno : Nat) : Prop :=
  peer.closed = false → peer.rcDone = true → ∀ m reply, findBlock blocks address size = some m → m.reply = some reply →
    (validateMemoryCache reply).Exact m.addr address size (contextReadMem peer blocks address size errno)

theorem read_served {peer : Peer} {blocks : List MemoryCache} {address size : UInt64} {errno : Nat} {m : MemoryCache}
    {reply : Reply m.size} (connected : peer.closed = false) (done : peer.rcDone = true)
    (found : findBlock blocks address size = some m) (filled : m.reply = some reply) :
    contextReadMem peer blocks address size errno = (validateMemoryCache reply).serve m.addr address size errno := by
  simp [contextReadMem,connected,done,found,filled]

/-- Reads of a peer are exact where the block they find fits them. -/
theorem read_exact_iff (peer : Peer) (blocks : List MemoryCache) (address size : UInt64) (errno : Nat) :
    Served peer blocks address size errno ↔
      (peer.closed = false → peer.rcDone = true → ∀ m reply, findBlock blocks address size = some m → m.reply = some reply →
        (validateMemoryCache reply).Fits m.addr address size errno) := by
  refine forall_congr' fun connected => forall_congr' fun done => forall_congr' fun m => forall_congr' fun reply =>
    forall_congr' fun found => forall_congr' fun filled => ?_
  rw [read_served connected done found filled]
  exact serve_exact ..

/-- A block of four bytes of which two came -/
def shortBlock : MemoryCache := ⟨0x1000,4,some (.answer ⟨[1,2],by decide⟩ 0 [])⟩

/-- A short reply without an error is returned with bytes that nobody has written. -/
theorem short_reply_served : ¬∀ peer blocks address size errno, Served peer blocks address size errno := by
  intro claim
  have found : findBlock [shortBlock] 0x1000 4 = some shortBlock := by rfl
  have exact := claim ⟨false,true⟩ [shortBlock] 0x1000 4 0 rfl rfl shortBlock _ found rfl
  rw [read_served rfl rfl found rfl,serve_exact] at exact
  have clean := exact.2
  simp [Filled.valid,validateMemoryCache,Filled.Clean] at clean

end Exactness

end Tcf.ContextMemory
