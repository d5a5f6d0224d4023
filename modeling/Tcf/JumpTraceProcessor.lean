import Tcf.JumpTrace

/-! The instructions that `trace_jump` follows, as the processor executes them, and where it follows them so. -/
namespace Tcf.JumpTrace

/-- A jump by a displacement, a jump through the address at a displacement, a load of a register, or another
instruction. A load has a SIB byte for some of its operands. -/
inductive Insn where
  | jump (length disp : UInt64)
  | jumpThrough (disp : UInt64)
  | load (modrm sib : UInt8)
  | other
  deriving DecidableEq, Repr

/-- The instruction at an address; none if it cannot be read. Loads of SP and BP are others. -/
def decode (mem : Memory) (addr : UInt64) : Option Insn := do
  let opcode ← mem addr
  if opcode = 0xeb then
    let disp ← readDisp08 mem (addr + 1)
    some (.jump 2 disp)
  else if opcode = 0xe9 then
    let disp ← readDisp32 mem (addr + 1)
    some (.jump 5 disp)
  else if opcode = 0xff then
    let modrm ← mem (addr + 1)
    if modrm ≠ 0x25 then some .other
    else
      let disp ← readDisp32 mem (addr + 2)
      some (.jumpThrough disp)
  else if opcode = 0x8b then
    let modrm ← mem (addr + 1)
    if reg modrm = 4 ∨ reg modrm = 5 then some .other
    else if mod modrm ≠ 3 ∧ rm modrm = 4 then
      let sib ← mem (addr + 2)
      some (.load modrm sib)
    else some (.load modrm 0)
  else some .other

/-- Addresses have 32 bits in 32 bit mode. -/
def truncate (x64 : Bool) (addr : UInt64) : UInt64 := if x64 then addr else addr.toUInt32.toUInt64

/-- The operand has no base register, but a displacement. -/
def noBase (modrm sib : UInt8) : Bool := mod modrm = 0 && (rm modrm = 5 || (rm modrm = 4 && sib &&& 7 = 5))

/-- The length of a load: opcode, ModRM byte, SIB byte and displacement. -/
def loadLength (modrm sib : UInt8) : UInt64 :=
  2 + (if mod modrm ≠ 3 ∧ rm modrm = 4 then 1 else 0) +
    (if mod modrm = 1 then 1 else if mod modrm = 2 ∨ noBase modrm sib then 4 else 0)

/-- Where the processor goes on. Jumps through memory are relative to the next instruction in 64 bit mode. -/
def Insn.target (x64 : Bool) (mem : Memory) (addr : UInt64) : Insn → Option UInt64
  | .jump length disp => some (truncate x64 (addr + length + disp))
  | .jumpThrough disp =>
    if x64 then readAddress mem (addr + 6 + disp) else (readMem mem (truncate false disp) 4).map number
  | .load modrm sib => some (truncate x64 (addr + loadLength modrm sib))
  | .other => none

/-- The bit of the register that is loaded. -/
def Insn.loaded (x64 : Bool) : Insn → UInt32
  | .load modrm _ => regBit x64 (reg modrm)
  | _ => 0

/-- Jumps and loads from an address on, and the address of the other instruction behind them. -/
inductive Chain (x64 : Bool) (mem : Memory) : List (UInt64 × Insn) → UInt64 → UInt64 → Prop
  | other {addr : UInt64} (decoded : decode mem addr = some .other) : Chain x64 mem [] addr addr
  | next {addr dest last : UInt64} {insn : Insn} {rest : List (UInt64 × Insn)} (decoded : decode mem addr = some insn)
      (goes : insn.target x64 mem addr = some dest) (later : Chain x64 mem rest dest last) :
      Chain x64 mem ((addr,insn) :: rest) addr last

/-- Where the processor is after a number of instructions. -/
def place (visited : List (UInt64 × Insn)) (last : UInt64) (cnt : Nat) : UInt64 := ((visited[cnt]?).map Prod.fst).getD last

def loadedMask (x64 : Bool) (visited : List (UInt64 × Insn)) : UInt32 :=
  visited.foldl (fun regMask v => regMask ||| v.2.loaded x64) 0

def Fits (x64 : Bool) (addr : UInt64) : Prop := x64 = true ∨ addr.toNat < 2 ^ 32

/-- When `trace_jump` goes where the processor goes: an address does not go around 2^32 in 32 bit mode; the eight bytes
behind the opcode of a jump through memory, as an address, lead to eight bytes with the destination; and a load
has a base register, other than SI without a displacement, for its operand. -/
def Insn.Followed (x64 : Bool) (mem : Memory) (addr : UInt64) (insn : Insn) : Prop :=
  match insn with
  | .jump length disp => Fits x64 (addr + length + disp)
  | .jumpThrough disp => (readAddress mem (addr + 2)).bind (readAddress mem) = (Insn.jumpThrough disp).target x64 mem addr
  | .load modrm sib => noBase modrm sib = false ∧ ¬ (mod modrm = 0 ∧ rm modrm = 6) ∧ Fits x64 (addr + loadLength modrm sib)
  | .other => True

/-- After each number of rounds `trace_jump` is where the processor is and has the registers that are loaded, and so in the
end. -/
def Follows (x64 : Bool) (mem : Memory) (visited : List (UInt64 × Insn)) (addr last : UInt64) : Prop :=
  ∀ regMask, (∀ cnt ≤ visited.length, traceLoop x64 mem cnt addr regMask =
      (place visited last cnt,regMask ||| loadedMask x64 (visited.take cnt))) ∧
    traceJump x64 mem addr regMask = (last,regMask ||| loadedMask x64 visited)

section Steps

variable {x64 : Bool} {mem : Memory} {addr dest : UInt64} {insn : Insn}

theorem truncate_eq_iff : truncate x64 addr = addr ↔ Fits x64 addr := by
  unfold truncate Fits
  cases x64 with
  | true => simp
  | false =>
    rw [if_neg Bool.false_ne_true,← UInt64.toNat_inj,UInt32.toNat_toUInt64,UInt64.toNat_toUInt32]
    constructor
    · intro same
      right
      omega
    · intro fits
      exact Nat.mod_eq_of_lt (fits.resolve_left Bool.false_ne_true)

/-- Two displacements that differ by less than 2^32 lead to different addresses. -/
theorem truncate_ne {near far : UInt64} (less : near.toNat < far.toNat) (small : far.toNat < 2 ^ 32) :
    truncate x64 (addr + far) ≠ addr + near := by
  intro same
  have nats := congrArg UInt64.toNat same
  unfold truncate at nats
  cases x64 with
  | true =>
    rw [if_pos rfl,UInt64.toNat_add,UInt64.toNat_add] at nats
    omega
  | false =>
    rw [if_neg Bool.false_ne_true,UInt32.toNat_toUInt64,UInt64.toNat_toUInt32,UInt64.toNat_add,UInt64.toNat_add] at nats
    omega

/-- What the body of the loop makes of an instruction. -/
def Insn.traced (mem : Memory) (addr : UInt64) : Insn → Option UInt64
  | .jump length disp => some (addr + length + disp)
  | .jumpThrough _ => (readAddress mem (addr + 2)).bind (readAddress mem)
  | .load modrm _ => (moveLength modrm).map (addr + ·)
  | .other => none

theorem traceStep_eq (decoded : decode mem addr = some insn) :
    traceStep x64 mem addr = (insn.traced mem addr).map fun dest => (dest,insn.loaded x64) := by
  unfold decode at decoded
  obtain ⟨opcode,read,decoded⟩ := Option.bind_eq_some_iff.mp decoded
  unfold traceStep
  rw [read]
  change (if opcode = 0xeb then _ else if opcode = 0xe9 then _ else if opcode = 0xff then _ else
    if opcode = 0x8b then _ else none) = _
  split at decoded
  · rename_i is
    rw [if_pos is]
    obtain ⟨disp,read,decoded⟩ := Option.bind_eq_some_iff.mp decoded
    cases decoded
    rw [read]
    rfl
  rename_i no
  rw [if_neg no]
  split at decoded
  · rename_i is
    rw [if_pos is]
    obtain ⟨disp,read,decoded⟩ := Option.bind_eq_some_iff.mp decoded
    cases decoded
    rw [read]
    rfl
  rename_i no
  rw [if_neg no]
  split at decoded
  · rename_i is
    rw [if_pos is]
    obtain ⟨modrm,read,decoded⟩ := Option.bind_eq_some_iff.mp decoded
    rw [read]
    change (if modrm ≠ 0x25 then _ else _) = _
    split at decoded
    · rename_i is
      rw [if_pos is]
      cases decoded
      rfl
    · rename_i no
      rw [if_neg no]
      obtain ⟨disp,read,decoded⟩ := Option.bind_eq_some_iff.mp decoded
      cases decoded
      change _ = ((readAddress mem (addr + 2)).bind (readAddress mem)).map _
      cases readAddress mem (addr + 2) with
      | none => rfl
      | some ptr =>
        change ((readAddress mem ptr).bind fun dest => some (dest,0)) = (readAddress mem ptr).map _
        cases readAddress mem ptr with
        | none => rfl
        | some dest => rfl
  rename_i no
  rw [if_neg no]
  split at decoded
  · rename_i is
    rw [if_pos is]
    obtain ⟨modrm,read,decoded⟩ := Option.bind_eq_some_iff.mp decoded
    rw [read]
    change (if reg modrm = 4 ∨ reg modrm = 5 then _ else _) = _
    split at decoded
    · rename_i is
      rw [if_pos is]
      cases decoded
      rfl
    · rename_i no
      rw [if_neg no]
      have load : ∃ sib, insn = .load modrm sib := by
        split at decoded
        · obtain ⟨sib,-,decoded⟩ := Option.bind_eq_some_iff.mp decoded
          exact ⟨sib,(Option.some.inj decoded).symm⟩
        · exact ⟨0,(Option.some.inj decoded).symm⟩
      obtain ⟨sib,rfl⟩ := load
      change _ = ((moveLength modrm).map (addr + ·)).map _
      cases moveLength modrm with
      | none => rfl
      | some length => rfl
  · rename_i no
    rw [if_neg no]
    cases decoded
    rfl

theorem mod_range (modrm : UInt8) : mod modrm = 0 ∨ mod modrm = 1 ∨ mod modrm = 2 ∨ mod modrm = 3 := by
  have small : (mod modrm).toNat < 4 := by
    have limit := modrm.toNat_lt
    have shifted : (mod modrm).toNat = modrm.toNat / 64 := by
      unfold mod
      rw [UInt8.toNat_shiftRight,Nat.shiftRight_eq_div_pow]
      rfl
    omega
  simp only [← UInt8.toNat_inj]
  change (mod modrm).toNat = 0 ∨ (mod modrm).toNat = 1 ∨ (mod modrm).toNat = 2 ∨ (mod modrm).toNat = 3
  omega

/-- The lengths of loads are those of the processor, where there is a base register and the loop does not stop. -/
theorem moveLength_eq {modrm sib : UInt8} (base : noBase modrm sib = false) (si : ¬ (mod modrm = 0 ∧ rm modrm = 6)) :
    moveLength modrm = some (loadLength modrm sib) := by
  unfold moveLength loadLength
  rw [base]
  have stops : ¬ (mod modrm = 0 ∧ (rm modrm = 5 ∨ rm modrm = 6)) := by
    rintro ⟨zero,five | six⟩
    · unfold noBase at base
      rw [zero,five] at base
      cases base
    · exact si ⟨zero,six⟩
  rw [if_neg stops]
  by_cases sibs : rm modrm = 4
  · rcases mod_range modrm with zero | one | two | three
    · simp [zero,sibs]
    · simp [one,sibs]
    · simp [two,sibs]
    · simp [three,sibs]
  · rcases mod_range modrm with zero | one | two | three
    · simp [zero,sibs]
    · simp [one,sibs]
    · simp [two,sibs]
    · simp [three,sibs]

/-- With no base register the loop stops, or passes the SIB byte and not the displacement. -/
theorem moveLength_noBase {modrm sib : UInt8} (base : noBase modrm sib = true) :
    moveLength modrm = none ∨ moveLength modrm = some 3 ∧ loadLength modrm sib = 7 := by
  unfold noBase at base
  obtain ⟨zero,base⟩ := Bool.and_eq_true_iff.mp base
  have zero := of_decide_eq_true zero
  unfold moveLength loadLength noBase
  rcases Bool.or_eq_true_iff.mp base with five | sibs
  · have five := of_decide_eq_true five
    left
    exact if_pos ⟨zero,Or.inl five⟩
  · obtain ⟨four,sibs⟩ := Bool.and_eq_true_iff.mp sibs
    have four := of_decide_eq_true four
    right
    simp [zero,four,of_decide_eq_true sibs]

/-- The body of the loop goes where the processor goes exactly if the instruction is one of those. -/
theorem traced_iff (goes : insn.target x64 mem addr = some dest) :
    insn.traced mem addr = some dest ↔ insn.Followed x64 mem addr := by
  cases insn with
  | jump length disp =>
    obtain rfl := Option.some.inj goes
    change some (addr + length + disp) = some _ ↔ Fits x64 (addr + length + disp)
    rw [Option.some.injEq,eq_comm]
    exact truncate_eq_iff
  | jumpThrough disp =>
    change _ ↔ (readAddress mem (addr + 2)).bind (readAddress mem) = (Insn.jumpThrough disp).target x64 mem addr
    rw [goes]
    rfl
  | other => cases goes
  | load modrm sib =>
    obtain rfl := Option.some.inj goes
    change (moveLength modrm).map (addr + ·) = some _ ↔ noBase modrm sib = false ∧ _
    constructor
    · intro same
      obtain ⟨length,found,same⟩ := Option.map_eq_some_iff.mp same
      have base : noBase modrm sib = false := by
        by_contra no
        rcases moveLength_noBase (Bool.eq_true_of_not_eq_false no) with none | ⟨three,seven⟩
        · rw [none] at found
          cases found
        · obtain rfl := Option.some.inj (three.symm.trans found)
          rw [seven] at same
          exact truncate_ne (by decide) (by decide) same.symm
      have si : ¬ (mod modrm = 0 ∧ rm modrm = 6) := by
        rintro ⟨zero,six⟩
        unfold moveLength at found
        rw [if_pos ⟨zero,Or.inr six⟩] at found
        cases found
      obtain rfl := Option.some.inj ((moveLength_eq base si).symm.trans found)
      exact ⟨base,si,truncate_eq_iff.mp same.symm⟩
    · rintro ⟨base,si,fits⟩
      rw [moveLength_eq base si,truncate_eq_iff.mpr fits]
      rfl

end Steps

section Loop

variable {x64 : Bool} {mem : Memory} {addr dest last : UInt64} {insn : Insn} {visited rest : List (UInt64 × Insn)}

/-- The bits that rounds add do not depend on those before. -/
theorem traceLoop_mask (cnt : Nat) (regMask : UInt32) :
    traceLoop x64 mem cnt addr regMask = ((traceLoop x64 mem cnt addr 0).1,regMask ||| (traceLoop x64 mem cnt addr 0).2) := by
  induction cnt generalizing addr regMask with
  | zero => simp [traceLoop]
  | succ cnt ih =>
    unfold traceLoop
    cases traceStep x64 mem addr with
    | none => simp
    | some next =>
      obtain ⟨dest,bit⟩ := next
      dsimp only
      split
      · simp
      · rw [ih (regMask ||| bit),ih (0 ||| bit)]
        simp [UInt32.or_assoc]

/-- Behind the jumps the loop stays. -/
theorem traceLoop_other (decoded : decode mem addr = some .other) (cnt : Nat) (regMask : UInt32) :
    traceLoop x64 mem cnt addr regMask = (addr,regMask) := by
  cases cnt with
  | zero => rfl
  | succ cnt =>
    unfold traceLoop
    rw [traceStep_eq decoded]
    rfl

theorem traceLoop_followed (decoded : decode mem addr = some insn) (traced : insn.traced mem addr = some dest)
    (moves : dest ≠ addr) (cnt : Nat) (regMask : UInt32) :
    traceLoop x64 mem (cnt + 1) addr regMask = traceLoop x64 mem cnt dest (regMask ||| insn.loaded x64) := by
  conv => lhs; unfold traceLoop
  rw [traceStep_eq decoded,traced]
  exact if_neg moves

/-- A chain from an address is the only one. -/
theorem Chain.unique {last' : UInt64} (chain : Chain x64 mem visited addr last) (other : Chain x64 mem rest addr last') :
    visited = rest := by
  induction chain generalizing rest with
  | other decoded =>
    cases other with
    | other => rfl
    | next decoded' goes =>
      cases decoded.symm.trans decoded'
      cases goes
  | next decoded goes later ih =>
    cases other with
    | other decoded' =>
      cases decoded'.symm.trans decoded
      cases goes
    | next decoded' goes' later' =>
      obtain rfl := Option.some.inj (decoded.symm.trans decoded')
      obtain rfl := Option.some.inj (goes.symm.trans goes')
      rw [ih later']

/-- No instruction of a chain jumps to itself: the chain would not end. -/
theorem Chain.moves (decoded : decode mem addr = some insn) (goes : insn.target x64 mem addr = some dest)
    (later : Chain x64 mem rest dest last) : dest ≠ addr := by
  rintro rfl
  have same := (Chain.next decoded goes later).unique later
  exact List.cons_ne_self _ _ same

theorem Chain.place_zero (chain : Chain x64 mem visited addr last) : place visited last 0 = addr := by
  cases chain with
  | other => rfl
  | next => rfl

theorem loadedMask_cons (regMask : UInt32) : regMask ||| loadedMask x64 ((addr,insn) :: rest) =
    regMask ||| insn.loaded x64 ||| loadedMask x64 rest := by
  have fold : ∀ (l : List (UInt64 × Insn)) (m : UInt32),
      l.foldl (fun regMask v => regMask ||| v.2.loaded x64) m = m ||| loadedMask x64 l := by
    intro l
    induction l with
    | nil => simp [loadedMask]
    | cons v l ih =>
      intro m
      unfold loadedMask
      rw [List.foldl_cons,List.foldl_cons,ih,ih (0 ||| _)]
      simp [UInt32.or_assoc]
  unfold loadedMask
  rw [List.foldl_cons,fold]
  simp [UInt32.or_assoc,loadedMask]

/-- Induction on the chain: any number of rounds, as far as the chain goes. -/
theorem traceLoop_chain (chain : Chain x64 mem visited addr last) (followed : ∀ v ∈ visited, v.2.Followed x64 mem v.1)
    (cnt : Nat) (regMask : UInt32) :
    traceLoop x64 mem cnt addr regMask = (place visited last cnt,regMask ||| loadedMask x64 (visited.take cnt)) := by
  induction chain generalizing cnt regMask with
  | other decoded =>
    rw [traceLoop_other decoded,List.take_nil]
    simp [place,loadedMask]
  | next decoded goes later ih =>
    cases cnt with
    | zero => simp [traceLoop,place,loadedMask]
    | succ cnt =>
      obtain ⟨here,others⟩ := List.forall_mem_cons.mp followed
      have traced := (traced_iff goes).mpr here
      rw [traceLoop_followed decoded traced (Chain.moves decoded goes later),ih others,List.take_succ_cons,loadedMask_cons]
      rfl

theorem traced_of_round (decoded : decode mem addr = some insn) (moves : dest ≠ addr)
    (round : (traceLoop x64 mem 1 addr 0).1 = dest) : insn.traced mem addr = some dest := by
  unfold traceLoop at round
  rw [traceStep_eq decoded] at round
  cases traced : insn.traced mem addr with
  | none =>
    rw [traced] at round
    exact absurd round.symm moves
  | some there =>
    rw [traced] at round
    change (if there = addr then (addr,_) else traceLoop x64 mem 0 there _).1 = dest at round
    split at round
    · exact absurd round.symm moves
    · exact congrArg some round

/-- Induction on the chain: one round decides on its first instruction, and the others on the rest. -/
theorem followed_of_rounds (chain : Chain x64 mem visited addr last)
    (rounds : ∀ cnt ≤ visited.length, (traceLoop x64 mem cnt addr 0).1 = place visited last cnt) :
    ∀ v ∈ visited, v.2.Followed x64 mem v.1 := by
  induction chain with
  | other => exact fun _ member => absurd member List.not_mem_nil
  | next decoded goes later ih =>
    have moves := Chain.moves decoded goes later
    have one := (rounds 1 (Nat.succ_le_succ (Nat.zero_le _))).trans later.place_zero
    have traced := traced_of_round decoded moves one
    have others := ih fun cnt bound => by
      have more := rounds (cnt + 1) (Nat.succ_le_succ bound)
      rw [traceLoop_followed decoded traced moves,traceLoop_mask] at more
      exact more
    intro v member
    rcases List.mem_cons.mp member with rfl | member
    · exact (traced_iff goes).mp traced
    · exact others v member

end Loop

section Claims

variable {x64 : Bool} {mem : Memory} {addr last : UInt64} {visited : List (UInt64 × Insn)}

/-- Bytes from an address on. -/
def memory (start : UInt64) (bytes : List UInt8) : Memory := fun a => bytes[(a - start).toNat]?

/-- A short jump back to a load of AX from the address in BX, and then a return. -/
def jumpAndLoad : Memory := memory 0x1000 [0x8b,0x03,0xc3,0xeb,0xfb]

/-- A jump through the address 2 bytes behind it, which is that of the return there. -/
def relativeJump : Memory := memory 0x1000 [0xff,0x25,2,0,0,0,0xc3,0x90,6,0x10,0,0,0,0,0,0]

end Claims

end Tcf.JumpTrace
