import Mathlib.Algebra.Order.Ring.Int
import Mathlib.Data.List.Basic
import Mathlib.Logic.Relation

/-! A block of memory that is disassembled into items, one after the other. -/
namespace Tcf.Disassembly

abbrev Text := List UInt8

structure ContextISA where
  addr : UInt64
  size : UInt64
  alignment : UInt64
  isa : Option Text
  def_ : Option Text
  deriving DecidableEq, Repr

/-- A disassembler that answers says at least one byte. -/
structure DisassemblyResult where
  text : Text
  size : UInt64
  size_pos : 0 < size.toNat

/-- Of the offset of the code in the buffer, its address, and the bytes left. -/
abbrev Disassembler := UInt64 → UInt64 → UInt64 → Option DisassemblyResult

structure Args where
  isa : Option Text
  addr : UInt64
  size : UInt64
  opcodeValue : Bool

/-- A block and what is known of it: `get_isa`, and the disassemblers of the processor. -/
structure Block where
  memBuf : Nat → UInt8
  bufAddr : UInt64
  bufSize : UInt64
  memSize : UInt64
  args : Args
  getIsa : UInt64 → Except Int ContextISA
  findDisassembler : Option Text → Option Disassembler

inductive Instruction where
  | text (text : Text)
  | word (v : UInt32)
  | half (v : UInt16)
  | byte (v : UInt8)
  deriving DecidableEq, Repr

/-- An item of the reply. `shown` and `dumped` are how many bytes from its offset its text and its opcode are made of. -/
structure Item where
  offs : UInt64
  address : UInt64
  size : UInt64
  instruction : Instruction
  opcode : Option (List UInt8)
  shown : Nat
  dumped : Nat
  deriving DecidableEq, Repr

structure State where
  offs : UInt64
  isa : ContextISA
  disassembler : Option Disassembler
  disassemblerOk : Bool

def State.next (st : State) (size : UInt64) : State := { st with offs := st.offs + size }

namespace Block

variable (b : Block)

def addr (offs : UInt64) : UInt64 := b.bufAddr + offs

def left (offs : UInt64) : UInt64 := b.memSize - offs

/-- Whether the ISA has to be asked for again. -/
def stale (isa : ContextISA) (addr : UInt64) : Bool :=
  b.args.isa = none && (addr < isa.addr || (isa.addr ≤ isa.addr + isa.size && isa.addr + isa.size ≤ addr))

def updateIsa (st : State) : Except Int State :=
  if b.stale st.isa (b.addr st.offs) then
    match b.getIsa (b.addr st.offs) with
    | .ok isa => .ok { st with isa, disassemblerOk := false }
    | .error err => .error err
  else .ok st

def updateDisassembler (st : State) : State :=
  if st.disassemblerOk then st
  else
    { st with
      disassembler := b.findDisassembler st.isa.isa <|> b.findDisassembler st.isa.def_
      disassemblerOk := true }

def refresh (st : State) : Except Int State := (b.updateIsa st).map b.updateDisassembler

def disassembled (st : State) : Option DisassemblyResult :=
  st.disassembler.bind fun disassembler => disassembler st.offs (b.addr st.offs) (b.left st.offs)

/-- The test for `.word` -/
def isWord (st : State) : Bool :=
  4 ≤ st.isa.alignment && b.addr st.offs &&& 3 = 0 && st.offs ≤ b.memSize + 4

/-- The test for `.half` -/
def isHalf (st : State) : Bool :=
  2 ≤ st.isa.alignment && b.addr st.offs &&& 1 = 0 && st.offs ≤ b.memSize + 2

def bytes (offs : UInt64) (n : Nat) : List UInt8 := (List.range n).map fun i => b.memBuf (offs.toNat + i)

/-- Bytes as a little endian number. -/
def number : List UInt8 → Nat
  | [] => 0
  | byte :: rest => byte.toNat + 2 ^ 8 * number rest

def fallback (st : State) : Instruction × UInt64 :=
  if b.isWord st then (.word (UInt32.ofNat (number (b.bytes st.offs 4))),4)
  else if b.isHalf st then (.half (UInt16.ofNat (number (b.bytes st.offs 2))),2)
  else (.byte (b.memBuf st.offs.toNat),1)

def item (st : State) : Item :=
  match b.disassembled st with
  | some dr => ⟨st.offs,b.addr st.offs,dr.size,.text dr.text,
      if b.args.opcodeValue then some (b.bytes st.offs dr.size.toNat) else none,0,if b.args.opcodeValue then dr.size.toNat else 0⟩
  | none => ⟨st.offs,b.addr st.offs,(b.fallback st).2,(b.fallback st).1,
      if b.args.opcodeValue then some (b.bytes st.offs (b.fallback st).2.toNat) else none,
      (b.fallback st).2.toNat,if b.args.opcodeValue then (b.fallback st).2.toNat else 0⟩

/-- Rounds of the loop: the items, and the error that ends it. -/
def loop : Nat → State → Option (List Item × Option Int)
  | 0, _ => none
  | rounds + 1, st =>
    if st.offs < b.bufSize ∧ st.offs < b.memSize then
      match b.refresh st with
      | .error err => some ([],some err)
      | .ok st => (loop rounds (st.next (b.item st).size)).map fun (items,err) => (b.item st :: items,err)
    else some ([],none)

/-- The ISA of the arguments goes before the one that is known. -/
def start (isa : ContextISA) : State where
  offs := 0
  isa := if b.args.isa.isSome then { isa with isa := b.args.isa, addr := b.args.addr, size := b.args.size } else isa
  disassembler := none
  disassemblerOk := false

def disassembleBlock (isa : ContextISA) (rounds : Nat) : Option (List Item × Option Int) := b.loop rounds (b.start isa)

end Block

section Exact

variable (b : Block)

/-- Items between two offsets, each where the one before ends. -/
inductive Tiles : Nat → Nat → List Item → Prop
  | done (start : Nat) : Tiles start start []
  | item {item : Item} {rest : List Item} {stop : Nat} (address : item.address = b.bufAddr + item.offs) (some_ : 0 < item.size.toNat)
    (fits : item.offs.toNat + item.size.toNat < 2 ^ 64) (tail : Tiles (item.offs.toNat + item.size.toNat) stop rest) :
    Tiles item.offs.toNat stop (item :: rest)

/-- An item is made of bytes that were read. -/
def Item.Inside (item : Item) (memSize : UInt64) : Prop :=
  item.offs.toNat + item.shown ≤ memSize.toNat ∧ item.offs.toNat + item.dumped ≤ memSize.toNat

/-- The loop goes on from a state. -/
def More (st : State) : Prop := st.offs < b.bufSize ∧ st.offs < b.memSize

/-- The loop goes from one state to the next. -/
def Next (st next : State) : Prop := More b st ∧ ∃ now, b.refresh st = .ok now ∧ next = now.next (b.item now).size

/-- With less than four bytes left there is no `.word`, with less than two no `.half`; and no instruction is longer than
what is left if its opcode is dumped, or goes around the address space. -/
structure Good (now : State) : Prop where
  word : b.disassembled now = none → (b.left now.offs).toNat < 4 → b.isWord now = false
  half : b.disassembled now = none → (b.left now.offs).toNat < 2 → b.isHalf now = false
  dump : ∀ dr, b.disassembled now = some dr → b.args.opcodeValue = true → dr.size.toNat ≤ (b.left now.offs).toNat
  wrap : ∀ dr, b.disassembled now = some dr → now.offs.toNat + dr.size.toNat < 2 ^ 64

/-- The items tile what was asked for and read, or an ISA is not known; and they are made of what was read. -/
def Tiled (st : State) : Prop :=
  ∃ rounds items err stop, b.loop rounds st = some (items,err) ∧ Tiles b st.offs.toNat stop items ∧
    (err = none → min b.bufSize.toNat b.memSize.toNat ≤ stop) ∧ ∀ item ∈ items, item.Inside b.memSize

variable {b} {st now : State}

theorem refresh_offs (refreshed : b.refresh st = .ok now) : now.offs = st.offs := by
  have update (s : State) : (b.updateDisassembler s).offs = s.offs := by
    unfold Block.updateDisassembler
    split <;> rfl
  unfold Block.refresh Block.updateIsa at refreshed
  split at refreshed
  · cases answer : b.getIsa (b.addr st.offs) with
    | error err =>
      rw [answer] at refreshed
      cases refreshed
    | ok isa =>
      rw [answer] at refreshed
      cases refreshed
      exact update _
  · cases refreshed
    exact update _

theorem left_toNat (before : now.offs < b.memSize) : now.offs.toNat + (b.left now.offs).toNat = b.memSize.toNat := by
  have bound := UInt64.lt_iff_toNat_lt.mp before
  rw [Block.left,UInt64.toNat_sub_of_le _ _ (UInt64.le_of_lt before)]
  omega

/-- What the fallback takes. -/
theorem fallback_size : (b.fallback now).2.toNat = if b.isWord now then 4 else if b.isHalf now then 2 else 1 := by
  unfold Block.fallback
  split
  · rfl
  · split <;> rfl

theorem item_offs : (b.item now).offs = now.offs := by
  unfold Block.item
  split <;> rfl

theorem item_address : (b.item now).address = b.bufAddr + (b.item now).offs := by
  unfold Block.item
  split <;> rfl

theorem item_size_pos : 0 < (b.item now).size.toNat := by
  unfold Block.item
  split
  · rename_i dr _
    exact dr.size_pos
  · change 0 < (b.fallback now).2.toNat
    rw [fallback_size]
    split
    · decide
    · split <;> decide

/-- The item of a state is in order exactly if the state is good. -/
theorem good_iff (before : now.offs < b.memSize) :
    Good b now ↔ (b.item now).Inside b.memSize ∧ (b.item now).offs.toNat + (b.item now).size.toNat < 2 ^ 64 := by
  have left := left_toNat before
  have limit := b.memSize.toNat_lt
  have some_ : 0 < (b.left now.offs).toNat := by
    have bound := UInt64.lt_iff_toNat_lt.mp before
    omega
  rw [item_offs]
  unfold Block.item Item.Inside
  cases answer : b.disassembled now with
  | some dr =>
    constructor
    · rintro ⟨-,-,dump,wrap⟩
      refine ⟨⟨Nat.le_of_lt (UInt64.lt_iff_toNat_lt.mp before),?_⟩,wrap dr answer⟩
      by_cases opcode : b.args.opcodeValue = true
      · have fits := dump dr answer opcode
        simp only [opcode,if_true]
        omega
      · simp only [opcode,Bool.false_eq_true,if_false]
        exact Nat.le_of_lt (UInt64.lt_iff_toNat_lt.mp before)
    · rintro ⟨⟨-,fits⟩,wrap⟩
      refine ⟨by simp [answer],by simp [answer],?_,?_⟩
      · intro other same opcode
        cases answer.symm.trans same
        simp only [opcode,if_true] at fits
        omega
      · intro other same
        cases answer.symm.trans same
        exact wrap
  | none =>
    have size : (b.fallback now).2.toNat = _ := fallback_size
    have dumped : (if b.args.opcodeValue = true then (b.fallback now).2.toNat else 0) ≤ (b.fallback now).2.toNat := by
      split
      · exact Nat.le_refl _
      · exact Nat.zero_le _
    have fits : Good b now ↔ (b.fallback now).2.toNat ≤ (b.left now.offs).toNat := by
      rw [size]
      constructor
      · rintro ⟨word,half,-,-⟩
        have word := word answer
        have half := half answer
        split
        · rename_i isWord
          by_contra more
          cases isWord.symm.trans (word (by omega))
        · split
          · rename_i isHalf
            by_contra more
            cases isHalf.symm.trans (half (by omega))
          · omega
      · intro enough
        refine ⟨fun _ less => ?_,fun _ less => ?_,by simp [answer],by simp [answer]⟩
        · by_contra isWord
          rw [if_pos (by simpa using isWord)] at enough
          omega
        · by_contra isHalf
          split at enough
          · omega
          · rw [if_pos (by simpa using isHalf)] at enough
            omega
    rw [fits]
    simp only
    clear size
    omega

/-- The loop from a state where it goes on. -/
theorem loop_more {rounds : Nat} (more : More b st) (refreshed : b.refresh st = .ok now) :
    b.loop (rounds + 1) st = (b.loop rounds (now.next (b.item now).size)).map fun reply => (b.item now :: reply.1,reply.2) := by
  have both : st.offs < b.bufSize ∧ st.offs < b.memSize := more
  rw [Block.loop,if_pos both,refreshed]

theorem next_offs (fits : now.offs.toNat + (b.item now).size.toNat < 2 ^ 64) :
    (now.next (b.item now).size).offs.toNat = now.offs.toNat + (b.item now).size.toNat := by
  rw [State.next,UInt64.toNat_add]
  exact Nat.mod_eq_of_lt fits

theorem Tiles.inv {start stop : Nat} {item : Item} {rest : List Item} (tiles : Tiles b start stop (item :: rest)) :
    item.offs.toNat + item.size.toNat < 2 ^ 64 ∧ Tiles b (item.offs.toNat + item.size.toNat) stop rest := by
  cases tiles with
  | item _ _ fits tail => exact ⟨fits,tail⟩

/-- A tiling makes its first state good, and goes on from the next one. -/
theorem Tiled.next (tiled : Tiled b st) (more : More b st) (refreshed : b.refresh st = .ok now) :
    Good b now ∧ Tiled b (now.next (b.item now).size) := by
  obtain ⟨rounds,items,err,stop,run,tiles,whole,inside⟩ := tiled
  cases rounds with
  | zero => cases run
  | succ rounds =>
    rw [loop_more more refreshed] at run
    obtain ⟨⟨rest,err'⟩,later,same⟩ := Option.map_eq_some_iff.mp run
    obtain ⟨rfl,rfl⟩ := Prod.mk.inj same
    obtain ⟨fits,tail⟩ := tiles.inv
    have before : now.offs < b.memSize := by
      rw [refresh_offs refreshed]
      exact more.2
    refine ⟨(good_iff before).mpr ⟨inside _ List.mem_cons_self,fits⟩,rounds,rest,err',stop,later,?_,whole,
      fun item member => inside item (List.mem_cons_of_mem _ member)⟩
    rw [item_offs] at fits tail
    rw [next_offs fits]
    exact tail

/-- By induction on the bytes left. -/
theorem tiled_of_good (n : Nat) : ∀ st : State, b.memSize.toNat - st.offs.toNat < n →
    (∀ reached now, Relation.ReflTransGen (Next b) st reached → More b reached → b.refresh reached = .ok now → Good b now) →
    Tiled b st := by
  induction n with
  | zero => exact fun _ less => absurd less (Nat.not_lt_zero _)
  | succ n ih =>
    intro st less good
    by_cases more : More b st
    · have both : st.offs < b.bufSize ∧ st.offs < b.memSize := more
      cases refreshed : b.refresh st with
      | error err =>
        refine ⟨1,[],some err,_,?_,.done _,nofun,fun _ member => absurd member List.not_mem_nil⟩
        rw [Block.loop,if_pos both,refreshed]
      | ok now =>
        have offs := refresh_offs refreshed
        have before : now.offs < b.memSize := by
          rw [offs]
          exact more.2
        obtain ⟨first,fits⟩ := (good_iff before).mp (good st now .refl more refreshed)
        have size : 0 < (b.item now).size.toNat := item_size_pos
        have bound := UInt64.lt_iff_toNat_lt.mp before
        have place := next_offs (by rw [item_offs] at fits; exact fits)
        have step : Next b st (now.next (b.item now).size) := ⟨more,now,refreshed,rfl⟩
        obtain ⟨rounds,items,err,stop,run,tiles,whole,inside⟩ :=
          ih (now.next (b.item now).size) (by rw [place,offs]; rw [offs] at bound; omega) fun reached other path =>
            good reached other (.head step path)
        refine ⟨rounds + 1,b.item now :: items,err,stop,?_,?_,whole,?_⟩
        · rw [loop_more more refreshed,run]
          rfl
        · rw [← offs,← item_offs (b := b)]
          apply Tiles.item item_address size fits
          rw [item_offs,← place]
          exact tiles
        · intro item member
          rcases List.mem_cons.mp member with rfl | later
          · exact first
          · exact inside item later
    · have either : ¬(st.offs < b.bufSize ∧ st.offs < b.memSize) := more
      refine ⟨1,[],none,st.offs.toNat,by rw [Block.loop,if_neg either],.done _,fun _ => ?_,fun _ member => absurd member List.not_mem_nil⟩
      unfold More at more
      rw [UInt64.lt_iff_toNat_lt,UInt64.lt_iff_toNat_lt] at more
      omega

end Exact

/-- The items tile the requested part of the block and are made of bytes that were read, exactly if the loop meets good
states only. -/
theorem disassembleBlock_tiled_iff (b : Block) (isa : ContextISA) :
    Tiled b (b.start isa) ↔
      ∀ st now, Relation.ReflTransGen (Next b) (b.start isa) st → More b st → b.refresh st = .ok now → Good b now := by
  constructor
  · intro tiled st now path
    have here : Tiled b st := by
      induction path with
      | refl => exact tiled
      | tail _ step ih =>
        obtain ⟨more,other,refreshed,rfl⟩ := step
        exact (ih.next more refreshed).2
    intro more refreshed
    exact (here.next more refreshed).1
  · exact tiled_of_good _ _ (Nat.lt_succ_self _)

section Examples

/-- Six bytes of zeros, no disassembler, and an ISA of the given alignment. -/
def exampleBlock (alignment : UInt64) : Block where
  memBuf _ := 0
  bufAddr := 0x1000
  bufSize := 6
  memSize := 6
  args := ⟨none,0,0,false⟩
  getIsa addr := .ok ⟨addr,0x1000,alignment,none,none⟩
  findDisassembler _ := none

/-- Of six bytes the second `.word` takes bytes 4 to 7. -/
theorem word_beyond_end :
    ((exampleBlock 4).disassembleBlock ⟨0,0,0,none,none⟩ 3).map (fun reply => (reply.1.map fun item => (item.offs,item.shown),reply.2)) =
      some ([(0,4),(4,4)],none) ∧ (exampleBlock 4).memSize = 6 := by
  decide

end Examples

end Tcf.Disassembly
