import Tcf.HardwareBreakpoints
import Mathlib.Data.List.Nodup
import Mathlib.Data.List.Range
import Mathlib.Data.Fintype.Basic

/-! The slots of a group and the debug registers of its threads through any run of the calls. -/
namespace Tcf.HardwareBreakpoints

variable {s : State} {t : Thread} {bps : Group} {bp : Breakpoint} {faults : List Failure}

section Registers

/-- The fields of DR7 for a debug register. -/
def enables (dr7 : BitVec 32) (i : Slot) : Bool := dr7.getLsbD (i.val * 2)
def accessField (dr7 : BitVec 32) (i : Slot) : BitVec 2 := dr7.extractLsb' (i.val * 4 + 16) 2
def lengthField (dr7 : BitVec 32) (i : Slot) : BitVec 2 := dr7.extractLsb' (i.val * 4 + 18) 2

/-- The processor's code of an access mode. A watch of reads has a register for writes and one for both, as no code is for
reads. -/
def accessCode (accessTypes idx : Nat) : BitVec 2 :=
  if accessTypes = dataRead ||| dataWrite ||| virtual then 3
  else if accessTypes = dataRead ||| virtual then if idx = 0 then 1 else 3
  else if accessTypes = dataWrite ||| virtual then 1
  else 0

def lengthCode (length : Nat) : BitVec 2 :=
  if length = 2 then 1 else if length = 4 then 3 else if length = 8 then 2 else 0

/-- A debug register is programmed for a breakpoint, with its role in it, or is not in use. -/
def Encodes (dr : Slot → Address) (dr7 : BitVec 32) (i : Slot) : Option Breakpoint → Nat → Prop
  | none, _ => enables dr7 i = false
  | some bp, idx => enables dr7 i = true ∧ dr i = bp.address ∧ accessField dr7 i = accessCode bp.accessTypes idx ∧
      lengthField dr7 i = lengthCode bp.length

/-- What `cpu_bp_plant` accepts. -/
def Supported (bp : Breakpoint) : Prop := (slotsFor bp.accessTypes).isSome ∧ supportedLength bp.length

instance (bp : Breakpoint) : Decidable (Supported bp) := inferInstanceAs (Decidable (_ ∧ _))

def needs (bp : Breakpoint) : Nat := (slotsFor bp.accessTypes).getD 0

theorem Supported.modes (supported : Supported bp) : bp.accessTypes = 0x11 ∨ bp.accessTypes = 0x12 ∨ bp.accessTypes = 0x13 := by
  have some_ := supported.1
  simp only [slotsFor,dataRead,dataWrite,instruction,virtual,enableBpAccessInstruction] at some_
  grind

theorem Supported.lengths (supported : Supported bp) :
    bp.length = 1 ∨ bp.length = 2 ∨ bp.length = 4 ∨ bp.length = 8 := by
  have fits : bp.length ≤ 8 ∧ Nat.testBit 0x116 bp.length = true := by simpa [supportedLength] using supported.2
  obtain ⟨le,bit⟩ := fits
  revert bit
  generalize bp.length = n at le
  revert n
  decide

theorem Supported.not_instruction (supported : Supported bp) : bp.onInstruction = false := by
  rcases supported.modes with mode | mode | mode <;> simp [Breakpoint.onInstruction,instruction,mode]

/-- Bits of DR7 for a slot with these codes. -/
def codeBits (i : Slot) (access length : BitVec 2) : BitVec 32 :=
  1#32 <<< (i.val * 2) ||| (access.setWidth 32 <<< (i.val * 4 + 16) ||| 0x100#32) ||| length.setWidth 32 <<< (i.val * 4 + 18)

theorem codeBits_fields : ∀ (i j : Slot) (a l : Fin 4),
    enables (codeBits i (BitVec.ofFin a) (BitVec.ofFin l)) j = decide (i = j) ∧
      accessField (codeBits i (BitVec.ofFin a) (BitVec.ofFin l)) j = (if i = j then BitVec.ofFin a else 0) ∧
      lengthField (codeBits i (BitVec.ofFin a) (BitVec.ofFin l)) j = if i = j then BitVec.ofFin l else 0 := by
  decide +kernel

/-- The bits `set_debug_regs` sets for a supported breakpoint are those of its codes. -/
theorem bits_eq (supported : Supported bp) (i : Slot) (idx : Nat) :
    ∃ access length, accessBits i idx bp.accessTypes = some access ∧ lengthBits i bp.length = some length ∧
      ∀ dr7, dr7 ||| 1#32 <<< (i.val * 2) ||| access ||| length =
        dr7 ||| codeBits i (accessCode bp.accessTypes idx) (lengthCode bp.length) := by
  refine ⟨(accessCode bp.accessTypes idx).setWidth 32 <<< (i.val * 4 + 16) ||| 0x100#32,
    (lengthCode bp.length).setWidth 32 <<< (i.val * 4 + 18),?_,?_,fun dr7 => by simp [codeBits,BitVec.or_assoc]⟩
  · rcases supported.modes with mode | mode | mode <;>
      simp [accessBits,accessCode,mode,dataRead,dataWrite,instruction,virtual]
    split <;> simp_all
  · rcases supported.lengths with length | length | length | length <;> simp [lengthBits,lengthCode,length]

/-- The bits of DR7 for a slot. -/
def slotBits (bps : Group) (i : Slot) : BitVec 32 :=
  match bps.hwBps i with
  | none => 0#32
  | some bp => codeBits i (accessCode bp.accessTypes (bps.hwIdx i)) (lengthCode bp.length)

@[simp] theorem enables_or (a b : BitVec 32) (i : Slot) : enables (a ||| b) i = (enables a i || enables b i) := by simp [enables]

@[simp] theorem accessField_or (a b : BitVec 32) (i : Slot) : accessField (a ||| b) i = accessField a i ||| accessField b i :=
  BitVec.extractLsb'_or

@[simp] theorem lengthField_or (a b : BitVec 32) (i : Slot) : lengthField (a ||| b) i = lengthField a i ||| lengthField b i :=
  BitVec.extractLsb'_or

@[simp] theorem enables_zero (i : Slot) : enables 0#32 i = false := by simp [enables]

@[simp] theorem accessField_zero (i : Slot) : accessField 0#32 i = 0#2 := by revert i; decide

@[simp] theorem lengthField_zero (i : Slot) : lengthField 0#32 i = 0#2 := by revert i; decide

@[simp] theorem slotBits_enables (bps : Group) (i j : Slot) :
    enables (slotBits bps j) i = (decide (j = i) && (bps.hwBps j).isSome) := by
  unfold slotBits
  cases bps.hwBps j with
  | none => simp
  | some bp => simpa using (codeBits_fields j i (accessCode bp.accessTypes (bps.hwIdx j)).toFin (lengthCode bp.length).toFin).1

theorem slotBits_fields (kept : bps.hwBps j = some bp) (i : Slot) :
    accessField (slotBits bps j) i = (if j = i then accessCode bp.accessTypes (bps.hwIdx j) else 0) ∧
      lengthField (slotBits bps j) i = if j = i then lengthCode bp.length else 0 := by
  have fields := codeBits_fields j i (accessCode bp.accessTypes (bps.hwIdx j)).toFin (lengthCode bp.length).toFin
  simpa [slotBits,kept] using fields.2

theorem slotBits_other (bps : Group) {i j : Slot} (other : j ≠ i) :
    accessField (slotBits bps j) i = 0 ∧ lengthField (slotBits bps j) i = 0 := by
  cases kept : bps.hwBps j with
  | none => simp [slotBits,kept]
  | some bp => simpa [other] using slotBits_fields kept i

/-- DR7 at the end of the loop. -/
def allBits (bps : Group) : BitVec 32 := (List.finRange maxHwBps).foldl (fun dr7 i => dr7 ||| slotBits bps i) 0#32

/-- A field for one register is only set by the slot of that register. -/
theorem fold_field {β : Type} (bps : Group) (field : BitVec 32 → β) (join : β → β → β) (zero : β)
    (joins : ∀ a b, field (a ||| b) = join (field a) (field b)) (unit : ∀ x, join x zero = x)
    (twice : ∀ x y, join (join x y) y = join x y) (i : Slot) (others : ∀ j, j ≠ i → field (slotBits bps j) = zero)
    (l : List Slot) (dr7 : BitVec 32) :
    field (l.foldl (fun dr7 i => dr7 ||| slotBits bps i) dr7) =
      if i ∈ l then join (field dr7) (field (slotBits bps i)) else field dr7 := by
  induction l generalizing dr7 with
  | nil => simp
  | cons j rest ih =>
    rw [List.foldl_cons,ih,joins]
    by_cases here : j = i
    · subst here
      simp [twice]
    · simp [others j here,unit,Ne.symm here]

theorem allBits_encodes (bps : Group) (dr : Slot → Address)
    (addresses : ∀ i bp, bps.hwBps i = some bp → dr i = bp.address) (i : Slot) :
    Encodes dr (allBits bps) i (bps.hwBps i) (bps.hwIdx i) := by
  have enabled : enables (allBits bps) i = (bps.hwBps i).isSome := by
    have fold := fold_field bps (enables · i) (· || ·) false (fun a b => enables_or a b i) Bool.or_false
      (by decide) i (fun j other => by simp [other]) (List.finRange maxHwBps) 0#32
    simpa [allBits] using fold
  have access : accessField (allBits bps) i = accessField (slotBits bps i) i := by
    have fold := fold_field bps (accessField · i) (· ||| ·) 0#2 (fun a b => accessField_or a b i) (by decide)
      (by decide) i (fun j other => (slotBits_other bps other).1) (List.finRange maxHwBps) 0#32
    simpa [allBits] using fold
  have length : lengthField (allBits bps) i = lengthField (slotBits bps i) i := by
    have fold := fold_field bps (lengthField · i) (· ||| ·) 0#2 (fun a b => lengthField_or a b i) (by decide)
      (by decide) i (fun j other => (slotBits_other bps other).2) (List.finRange maxHwBps) 0#32
    simpa [allBits] using fold
  cases kept : bps.hwBps i with
  | none => simpa [Encodes,kept] using enabled
  | some bp =>
    obtain ⟨fieldA,fieldL⟩ := slotBits_fields kept i
    exact ⟨by simp [enabled,kept],addresses i bp kept,by simp [access,fieldA],by simp [length,fieldL]⟩

end Registers

section Updates

/-- Slots hold what `cpu_bp_plant` accepts. -/
def Ready (bps : Group) : Prop := ∀ i bp, bps.hwBps i = some bp → Supported bp

/-- A write that `set_debug_regs` makes for these slots fails. -/
def Refused (faults : List Failure) (slots : Slot → Option Breakpoint) (t : Thread) : Prop :=
  (∃ i, slots i ≠ none ∧ Fails faults true t.id (.dr i.val)) ∨ Fails faults true t.id (.dr 7)

instance (faults : List Failure) (slots : Slot → Option Breakpoint) (t : Thread) : Decidable (Refused faults slots t) :=
  inferInstanceAs (Decidable (_ ∨ _))

/-- Address registers after a call that returned -1: those before the failure may have the addresses of their slots. -/
def Partly (faults : List Failure) (slots : Slot → Option Breakpoint) (t : Thread) (dr : Slot → Address) : Prop :=
  ∀ i, dr i = t.dr i ∨ ∃ bp, slots i = some bp ∧ dr i = bp.address ∧
    ∀ j ≤ i, slots j ≠ none → ¬Fails faults true t.id (.dr j.val)

/-- The registers are those of the slots now. -/
structure Written (bps : Group) (t t' : Thread) : Prop where
  same : t' = { t with dr := t'.dr, dr7 := t'.dr7, hwBpsRegsGeneration := bps.hwBpsGeneration, asOf := bps.bumps }
  encodes : ∀ i, Encodes t'.dr t'.dr7 i (bps.hwBps i) (bps.hwIdx i)

theorem setSlots_cases (faults : List Failure) (ready : Ready bps) (ip : Option Address) (l : List Slot) (sorted : l.Pairwise (· < ·))
    (t : Thread) (dr7 : BitVec 32) :
    (∃ dr, setSlots faults bps ip l t dr7 false =
        ({ t with dr },some (l.foldl (fun dr7 i => dr7 ||| slotBits bps i) dr7,false)) ∧
      (∀ i, i ∉ l ∨ bps.hwBps i = none → dr i = t.dr i) ∧ (∀ i ∈ l, ∀ bp, bps.hwBps i = some bp → dr i = bp.address) ∧
      ∀ i ∈ l, bps.hwBps i ≠ none → ¬Fails faults true t.id (.dr i.val)) ∨
    (∃ dr, setSlots faults bps ip l t dr7 false = ({ t with dr },none) ∧
      (∃ i ∈ l, bps.hwBps i ≠ none ∧ Fails faults true t.id (.dr i.val)) ∧
      ∀ i, dr i = t.dr i ∨ i ∈ l ∧ ∃ bp, bps.hwBps i = some bp ∧ dr i = bp.address ∧
        ∀ j ∈ l, j ≤ i → bps.hwBps j ≠ none → ¬Fails faults true t.id (.dr j.val)) := by
  induction l generalizing t dr7 with
  | nil => exact .inl ⟨t.dr,rfl,by simp,by simp,by simp⟩
  | cons i rest ih =>
    obtain ⟨first,later⟩ := List.pairwise_cons.mp sorted
    have fresh : i ∉ rest := fun inside => absurd (first i inside) (lt_irrefl i)
    cases kept : bps.hwBps i with
    | none =>
      have skip : setSlots faults bps ip (i :: rest) t dr7 false = setSlots faults bps ip rest t dr7 false := by
        simp [setSlots,kept]
      rw [skip]
      have bits : slotBits bps i = 0 := by simp [slotBits,kept]
      rcases ih later t dr7 with ⟨dr,run,others,addresses,fine⟩ | ⟨dr,run,refused,partly⟩
      · refine .inl ⟨dr,by simp [run,bits],fun j outside => ?_,?_,?_⟩
        · by_cases here : j = i
          · exact others j (.inl (here ▸ fresh))
          · exact others j (by simpa [here] using outside)
        · rintro j inside bp held
          rcases List.mem_cons.mp inside with rfl | inside
          · simp [kept] at held
          · exact addresses j inside bp held
        · rintro j inside held
          rcases List.mem_cons.mp inside with rfl | inside
          · exact absurd kept held
          · exact fine j inside held
      · obtain ⟨j,inside,held,fails⟩ := refused
        refine .inr ⟨dr,run,⟨j,List.mem_cons_of_mem i inside,held,fails⟩,fun j => ?_⟩
        rcases partly j with same | ⟨inside,bp,held,address,before⟩
        · exact .inl same
        · refine .inr ⟨List.mem_cons_of_mem i inside,bp,held,address,fun k among le occupied => ?_⟩
          rcases List.mem_cons.mp among with rfl | among
          · exact absurd kept occupied
          · exact before k among le occupied
    | some bp =>
      have supported := ready i bp kept
      by_cases fails : Fails faults true t.id (.dr i.val)
      · exact .inr ⟨t.dr,by simp [setSlots,kept,supported.not_instruction,fails],⟨i,by simp,by simp [kept],fails⟩,fun j => .inl rfl⟩
      · obtain ⟨access,length,accessOk,lengthOk,bits⟩ := bits_eq supported i (bps.hwIdx i)
        have go : setSlots faults bps ip (i :: rest) t dr7 false =
            setSlots faults bps ip rest { t with dr := Function.update t.dr i bp.address } (dr7 ||| slotBits bps i) false := by
          simp [setSlots,kept,supported.not_instruction,fails,accessOk,lengthOk,bits,slotBits]
        rw [go]
        rcases ih later { t with dr := Function.update t.dr i bp.address } (dr7 ||| slotBits bps i) with
          ⟨dr,run,others,addresses,fine⟩ | ⟨dr,run,refused,partly⟩
        · refine .inl ⟨dr,by simp [run],fun j outside => ?_,?_,?_⟩
          · have other : j ≠ i := by
              rintro rfl
              simp [kept] at outside
            have outside : j ∉ rest ∨ bps.hwBps j = none := by simpa [other] using outside
            simpa [other] using others j outside
          · rintro j inside b held
            rcases List.mem_cons.mp inside with rfl | inside
            · obtain rfl : bp = b := by simpa [kept] using held
              simpa using others j (.inl fresh)
            · exact addresses j inside b held
          · rintro j inside held
            rcases List.mem_cons.mp inside with rfl | inside
            · exact fails
            · exact fine j inside held
        · obtain ⟨j,inside,held,refused⟩ := refused
          refine .inr ⟨dr,run,⟨j,List.mem_cons_of_mem i inside,held,refused⟩,fun j => ?_⟩
          rcases partly j with same | ⟨inside,b,held,address,before⟩
          · by_cases here : j = i
            · subst here
              refine .inr ⟨by simp,bp,kept,by simpa using same,fun k among le _ => ?_⟩
              rcases List.mem_cons.mp among with rfl | among
              · exact fails
              · exact absurd (first k among) (not_lt.mpr le)
            · exact .inl (by simpa [here] using same)
          · refine .inr ⟨List.mem_cons_of_mem i inside,b,held,address,fun k among le occupied => ?_⟩
            rcases List.mem_cons.mp among with rfl | among
            · exact fails
            · exact before k among le occupied

/-- What `set_debug_regs` does when no slot holds an instruction breakpoint. -/
theorem setDebugRegs_cases (faults : List Failure) (ready : Ready bps) (ip : Option Address) (t : Thread) :
    (∃ t', setDebugRegs faults bps ip t = (t',some false) ∧ Written bps t t' ∧ ¬Refused faults bps.hwBps t) ∨
    (∃ dr, setDebugRegs faults bps ip t = ({ t with dr },none) ∧ Refused faults bps.hwBps t ∧ Partly faults bps.hwBps t dr) := by
  rcases setSlots_cases faults ready ip (List.finRange maxHwBps) (List.pairwise_lt_finRange _) t 0#32 with
    ⟨dr,run,others,addresses,fine⟩ | ⟨dr,run,⟨i,-,held,fails⟩,partly⟩
  · by_cases fails : Fails faults true t.id (.dr 7)
    · refine .inr ⟨dr,?_,.inr fails,fun i => ?_⟩
      · simp only [setDebugRegs,run]
        rw [if_pos fails]
      · cases kept : bps.hwBps i with
        | none => exact .inl (others i (.inr kept))
        | some bp =>
          exact .inr ⟨bp,rfl,addresses i (by simp) bp kept,fun j _ occupied => fine j (by simp) occupied⟩
    · refine .inl ⟨{ t with dr, dr7 := allBits bps, hwBpsRegsGeneration := bps.hwBpsGeneration, asOf := bps.bumps },?_,?_,?_⟩
      · simp only [setDebugRegs,run]
        rw [if_neg fails]
        simp [allBits]
      · exact ⟨rfl,allBits_encodes bps dr fun i bp => addresses i (by simp) bp⟩
      · rintro (⟨i,held,bad⟩ | bad)
        · exact fine i (by simp) held bad
        · exact fails bad
  · refine .inr ⟨dr,by simp [setDebugRegs,run],.inl ⟨i,held,fails⟩,fun i => ?_⟩
    rcases partly i with same | ⟨-,bp,held,address,before⟩
    · exact .inl same
    · exact .inr ⟨bp,held,address,fun j le => before j (by simp) le⟩

/-- How the loop over the threads leaves one of them. -/
inductive Update (faults : List Failure) (g : Nat) (bps : Group) (t : Thread) : Thread → Prop where
  | kept : Update faults g bps t t
  | written (own : t.group = g) (change : Written bps t t') : Update faults g bps t t'
  | partly (own : t.group = g) (change : Partly faults bps.hwBps t dr) : Update faults g bps t { t with dr }

/-- After a successful loop. -/
def Updated (g : Nat) (bps : Group) (t t' : Thread) : Prop :=
  if t.stopped ∧ t.group = g then Written bps t t' else t' = t

theorem setStopped_cases (faults : List Failure) (ready : Ready bps) (g : Nat) (threads : List Thread) :
    (∃ threads', setStopped faults g bps threads = (threads',true) ∧ List.Forall₂ (Updated g bps) threads threads') ∨
    (∃ threads', setStopped faults g bps threads = (threads',false) ∧ List.Forall₂ (Update faults g bps) threads threads') := by
  induction threads with
  | nil => exact .inl ⟨[],rfl,.nil⟩
  | cons t rest ih =>
    by_cases own : t.stopped ∧ t.group = g
    · rcases setDebugRegs_cases faults ready none t with ⟨t',run,written,-⟩ | ⟨dr,run,-,partly⟩
      · rcases ih with ⟨rest',later,all⟩ | ⟨rest',later,all⟩
        · exact .inl ⟨t' :: rest',by simp [setStopped,own,run,later],.cons (by simpa [Updated,own] using written) all⟩
        · exact .inr ⟨t' :: rest',by simp [setStopped,own,run,later],.cons (.written own.2 written) all⟩
      · refine .inr ⟨{ t with dr } :: rest,by simp [setStopped,own,run],.cons (.partly own.2 partly) ?_⟩
        exact List.forall₂_same.mpr fun _ _ => .kept
    · rcases ih with ⟨rest',later,all⟩ | ⟨rest',later,all⟩
      · exact .inl ⟨t :: rest',by simp [setStopped,own,later],.cons (by simp [Updated,own]) all⟩
      · exact .inr ⟨t :: rest',by simp [setStopped,own,later],.cons .kept all⟩

/-- The writes of a call for these slots do no harm where they fail: the first stopped thread of the group is the one
refused, and no register that was written before is in use for another address. -/
def Harmless (faults : List Failure) (g : Nat) (slots : Slot → Option Breakpoint) : List Thread → Prop
  | [] => True
  | t :: rest =>
    if t.stopped ∧ t.group = g then
      if Refused faults slots t then
        ∀ i, (∀ j ≤ i, slots j ≠ none → ¬Fails faults true t.id (.dr j.val)) → ∀ bp ∈ slots i,
          enables t.dr7 i = false ∨ t.dr i = bp.address
      else ∀ u ∈ rest, u.stopped ∧ u.group = g → ¬Refused faults slots u
    else Harmless faults g slots rest

instance decideHarmless (faults : List Failure) (g : Nat) (slots : Slot → Option Breakpoint) :
    ∀ threads, Decidable (Harmless faults g slots threads)
  | [] => isTrue trivial
  | t :: rest =>
    have : Decidable (Harmless faults g slots rest) := decideHarmless faults g slots rest
    inferInstanceAs (Decidable (if t.stopped ∧ t.group = g then
      if Refused faults slots t then
        ∀ i, (∀ j ≤ i, slots j ≠ none → ¬Fails faults true t.id (.dr j.val)) → ∀ bp ∈ slots i,
          enables t.dr7 i = false ∨ t.dr i = bp.address
      else ∀ u ∈ rest, u.stopped ∧ u.group = g → ¬Refused faults slots u
    else Harmless faults g slots rest))

/-- Whatever the registers enable, they did before. -/
def NothingNew (t t' : Thread) : Prop :=
  ∀ i, enables t'.dr7 i = true → enables t.dr7 i = true ∧ t'.dr i = t.dr i ∧ accessField t'.dr7 i = accessField t.dr7 i ∧
    lengthField t'.dr7 i = lengthField t.dr7 i

theorem NothingNew.refl (t : Thread) : NothingNew t t := fun _ on => ⟨on,rfl,rfl,rfl⟩

/-- After a failure that does no harm, one thread has other addresses, in registers that are not in use. -/
inductive Kept (faults : List Failure) (g : Nat) (bps : Group) (t : Thread) : Thread → Prop where
  | same : Kept faults g bps t t
  | partly (own : t.group = g) (change : Partly faults bps.hwBps t dr) (nothing : NothingNew t { t with dr }) :
      Kept faults g bps t { t with dr }

theorem setStopped_returns (ready : Ready bps) {g : Nat} {threads : List Thread}
    (fine : ∀ u ∈ threads, u.stopped ∧ u.group = g → ¬Refused faults bps.hwBps u) :
    (setStopped faults g bps threads).2 = true := by
  induction threads with
  | nil => rfl
  | cons t rest ih =>
    have later := ih fun u inside => fine u (List.mem_cons_of_mem t inside)
    by_cases own : t.stopped ∧ t.group = g
    · rcases setDebugRegs_cases faults ready none t with ⟨t',run,-,-⟩ | ⟨dr,run,refused,-⟩
      · simp [setStopped,own,run,later]
      · exact absurd refused (fine t (by simp) own)
    · simp [setStopped,own,later]

theorem setStopped_harmless (ready : Ready bps) {g : Nat} {threads threads' : List Thread}
    (harmless : Harmless faults g bps.hwBps threads) (failed : setStopped faults g bps threads = (threads',false)) :
    List.Forall₂ (Kept faults g bps) threads threads' := by
  induction threads generalizing threads' with
  | nil => simp [setStopped] at failed
  | cons t rest ih =>
    by_cases own : t.stopped ∧ t.group = g
    · rcases setDebugRegs_cases faults ready none t with ⟨t',run,-,fine⟩ | ⟨dr,run,refused,partly⟩
      · have others : ∀ u ∈ rest, u.stopped ∧ u.group = g → ¬Refused faults bps.hwBps u := by
          simpa only [Harmless,if_pos own,if_neg fine] using harmless
        have returns := setStopped_returns ready others
        simp [setStopped,own,run,returns,Prod.ext_iff] at failed
      · have apart : ∀ i, (∀ j ≤ i, bps.hwBps j ≠ none → ¬Fails faults true t.id (.dr j.val)) → ∀ bp ∈ bps.hwBps i,
            enables t.dr7 i = false ∨ t.dr i = bp.address := by
          simpa only [Harmless,if_pos own,if_pos refused] using harmless
        obtain rfl : { t with dr } :: rest = threads' := by simpa [setStopped,own,run] using failed
        refine .cons (.partly own.2 partly fun i on => ⟨on,?_,rfl,rfl⟩) (List.forall₂_same.mpr fun _ _ => .same)
        rcases partly i with same | ⟨bp,held,address,before⟩
        · exact same
        · rcases apart i before bp held with off | same
          · exact absurd on (by simp [off])
          · exact address.trans same.symm
    · have harmless : Harmless faults g bps.hwBps rest := by simpa only [Harmless,if_neg own] using harmless
      cases later : setStopped faults g bps rest with
      | mk rest' ok =>
        obtain ⟨rfl,rfl⟩ : t :: rest' = threads' ∧ ok = false := by simpa [setStopped,own,later] using failed
        exact .cons .same (ih harmless later)

end Updates

section Slots

/-- Free slots among some. -/
def freeIn (bps : Group) (l : List Slot) : Nat := l.countP fun i => bps.hwBps i = none

/-- Slots before this one. -/
def slotsBefore (i : Slot) : List Slot := (List.finRange maxHwBps).takeWhile (· ≠ i)

/-- The slots with a breakpoint in the first free ones, as many as it needs. -/
def planned (bps : Group) (bp : Breakpoint) (i : Slot) : Option Breakpoint :=
  if bps.hwBps i = none ∧ freeIn bps (slotsBefore i) < needs bp then some bp else bps.hwBps i

/-- What the loop of `cpu_bp_plant` makes of slots `l` when it has taken `m` others. -/
structure Placed (bp : Breakpoint) (n : Nat) (l : List Slot) (m : Nat) (bps bps' : Group) (m' : Nat) : Prop where
  others : bps' = { bps with hwBps := bps'.hwBps, hwIdx := bps'.hwIdx }
  count : m' = min n (m + freeIn bps l)
  slots : ∀ i, bps'.hwBps i =
    if i ∈ l ∧ bps.hwBps i = none ∧ m + freeIn bps (l.takeWhile (· ≠ i)) < n then some bp else bps.hwBps i
  idx : ∀ i, bps.hwBps i ≠ none → bps'.hwIdx i = bps.hwIdx i
  outside : ∀ i ∉ l, bps'.hwIdx i = bps.hwIdx i
  indices : (l.filter fun i => bps'.hwBps i = some bp).map bps'.hwIdx = List.range' m (m' - m)

theorem freeIn_congr {bps bps' : Group} (l : List Slot) (same : ∀ i ∈ l, bps'.hwBps i = bps.hwBps i) :
    freeIn bps' l = freeIn bps l :=
  List.countP_congr fun i inside => by simp [same i inside]

theorem place_placed (bp : Breakpoint) (n : Nat) (l : List Slot) (distinct : l.Nodup) (m : Nat) (le : m ≤ n) (bps : Group)
    (clear : ∀ i ∈ l, bps.hwBps i ≠ some bp) :
    ∃ bps' m', place bp n l m bps = .ok (bps',m') ∧ Placed bp n l m bps bps' m' := by
  induction l generalizing m bps with
  | nil => exact ⟨bps,m,rfl,⟨rfl,by simp [freeIn,le],by simp,fun _ _ => rfl,fun _ _ => rfl,by simp⟩⟩
  | cons i rest ih =>
    obtain ⟨fresh,distinct⟩ := List.nodup_cons.mp distinct
    by_cases more : m < n
    · have asserted : bps.hwBps i ≠ some bp := clear i (by simp)
      by_cases isFree : bps.hwBps i = none
      · let taken : Group := { bps with hwBps := Function.update bps.hwBps i (some bp), hwIdx := Function.update bps.hwIdx i m }
        have same : ∀ j, j ≠ i → taken.hwBps j = bps.hwBps j := fun j other => Function.update_of_ne other _ _
        have sameIdx : ∀ j, j ≠ i → taken.hwIdx j = bps.hwIdx j := fun j other => Function.update_of_ne other _ _
        have ne : ∀ j ∈ rest, j ≠ i := fun j inside here => fresh (here ▸ inside)
        have frees : ∀ l : List Slot, l ⊆ rest → freeIn taken l = freeIn bps l := fun l sub =>
          freeIn_congr l fun j inside => same j (ne j (sub inside))
        obtain ⟨bps',m',run,placed⟩ := ih distinct (m + 1) more taken fun j inside => by
          rw [same j (ne j inside)]
          exact clear j (List.mem_cons_of_mem i inside)
        have held : bps'.hwBps i = some bp := by simp [placed.slots i,fresh,taken]
        have own : bps'.hwIdx i = m := by simp [placed.outside i fresh,taken]
        refine ⟨bps',m',?_,⟨?_,?_,fun j => ?_,fun j occupied => ?_,fun j outside => ?_,?_⟩⟩
        · simpa [place,more,isFree,taken] using run
        · rw [placed.others]
        · rw [placed.count,frees rest (List.Subset.refl rest)]
          simp only [freeIn,List.countP_cons,isFree,decide_true,if_true]
          omega
        · by_cases here : j = i
          · subst here
            simp [held,isFree,more,freeIn]
          · have sub : rest.takeWhile (· ≠ j) ⊆ rest := (List.takeWhile_sublist _).subset
            rw [placed.slots j,same j here,frees _ sub]
            have step : m + freeIn bps ((i :: rest).takeWhile (· ≠ j)) = m + 1 + freeIn bps (rest.takeWhile (· ≠ j)) := by
              simp only [List.takeWhile_cons,ne_eq,Ne.symm here,not_false_eq_true,decide_true,if_true,freeIn,List.countP_cons,isFree]
              omega
            simp only [step,List.mem_cons,here,false_or]
        · have other : j ≠ i := by
            rintro rfl
            exact occupied isFree
          rw [placed.idx j (by rwa [same j other]),sameIdx j other]
        · rw [List.mem_cons,not_or] at outside
          rw [placed.outside j outside.2,sameIdx j outside.1]
        · have range : m' - m = (m' - (m + 1)) + 1 := by
            have := placed.count
            omega
          rw [List.filter_cons_of_pos (by simp [held]),List.map_cons,own,placed.indices,range,List.range'_succ]
      · obtain ⟨bps',m',run,placed⟩ := ih distinct m le bps fun j inside => clear j (List.mem_cons_of_mem i inside)
        have held : bps'.hwBps i = bps.hwBps i := by simp [placed.slots i,fresh]
        refine ⟨bps',m',?_,⟨placed.others,?_,fun j => ?_,placed.idx,fun j outside => ?_,?_⟩⟩
        · simpa [place,more,isFree,Code.require_bind_true asserted] using run
        · simpa [freeIn,isFree] using placed.count
        · by_cases here : j = i
          · subst here
            simp [held,isFree]
          · simp [placed.slots j,here,Ne.symm here,freeIn,isFree]
        · rw [List.mem_cons,not_or] at outside
          exact placed.outside j outside.2
        · rw [List.filter_cons_of_neg (by simpa [held] using asserted),placed.indices]
    · obtain rfl : m = n := by omega
      have none_ : (i :: rest).filter (fun i => bps.hwBps i = some bp) = [] := by
        rw [List.filter_eq_nil_iff]
        exact fun j inside => by simpa using clear j inside
      refine ⟨bps,m,by simp [place],⟨rfl,by omega,fun j => ?_,fun _ _ => rfl,fun _ _ => rfl,by simp [none_]⟩⟩
      rw [if_neg]
      omega

/-- The slots after the loop over all of them. -/
theorem place_all (bp : Breakpoint) (bps : Group) (clear : ∀ i, bps.hwBps i ≠ some bp) :
    ∃ bps' m, place bp (needs bp) (List.finRange maxHwBps) 0 bps = .ok (bps',m) ∧
      bps' = { bps with hwBps := planned bps bp, hwIdx := bps'.hwIdx } ∧ m = min (needs bp) (freeIn bps (List.finRange maxHwBps)) ∧
      (∀ i, bps.hwBps i ≠ none → bps'.hwIdx i = bps.hwIdx i) ∧
      ((List.finRange maxHwBps).filter fun i => bps'.hwBps i = some bp).map bps'.hwIdx = List.range m := by
  obtain ⟨bps',m,run,placed⟩ := place_placed bp (needs bp) (List.finRange maxHwBps) (List.nodup_finRange _) 0 (Nat.zero_le _) bps
    fun i _ => clear i
  have slots : bps'.hwBps = planned bps bp := by
    funext i
    simp [placed.slots i,planned,slotsBefore]
  refine ⟨bps',m,run,?_,by simpa using placed.count,placed.idx,?_⟩
  · rw [← slots]
    exact placed.others
  · rw [placed.indices,List.range_eq_range',Nat.sub_zero]

theorem planned_occupied (held : bps.hwBps i = some other) : planned bps bp i = some other := by simp [planned,held]

theorem planned_other (held : planned bps bp i = some other) (ne : other ≠ bp) : bps.hwBps i = some other := by
  unfold planned at held
  split at held
  · exact absurd (Option.some.inj held).symm ne
  · exact held

/-- Freeing the slots of the breakpoint takes the plan back. -/
theorem unplace_planned (clear : ∀ i, bps.hwBps i ≠ some bp) (i : Slot) :
    (if planned bps bp i = some bp then none else planned bps bp i) = bps.hwBps i := by
  unfold planned
  split
  · simp_all
  · simp [clear i]

/-- What the loop of `cpu_bp_remove` does. -/
structure Freed (bp : Breakpoint) (l : List Slot) (bps bps' : Group) : Prop where
  idx : bps'.hwIdx = bps.hwIdx
  slots : ∀ i, bps'.hwBps i = if i ∈ l ∧ bps.hwBps i = some bp then none else bps.hwBps i
  generation : bps.hwBpsGeneration = UInt32.ofNat bps.bumps → bps'.hwBpsGeneration = UInt32.ofNat bps'.bumps
  bumps : bps.bumps ≤ bps'.bumps
  kept : ∀ i, ¬(i ∈ l ∧ bps.hwBps i = some bp) → bps'.changed i = bps.changed i
  changed : ∀ i, i ∈ l ∧ bps.hwBps i = some bp → bps.bumps < bps'.changed i ∧ bps'.changed i ≤ bps'.bumps

theorem free_freed (bp : Breakpoint) (l : List Slot) (distinct : l.Nodup) (bps : Group) : Freed bp l bps (free bp l bps) := by
  induction l generalizing bps with
  | nil => exact ⟨rfl,by simp [free],id,le_refl _,fun _ _ => rfl,by simp⟩
  | cons i rest ih =>
    obtain ⟨fresh,distinct⟩ := List.nodup_cons.mp distinct
    by_cases own : bps.hwBps i = some bp
    · let next : Group := {
        bps with
        hwBps := Function.update bps.hwBps i none
        hwBpsGeneration := bps.hwBpsGeneration + 1
        bumps := bps.bumps + 1
        changed := Function.update bps.changed i (bps.bumps + 1) }
      have run : free bp (i :: rest) bps = free bp rest next := by simp [free,own,next]
      have freed := ih distinct next
      rw [run]
      refine ⟨freed.idx,fun j => ?_,fun same => freed.generation ?_,?_,fun j out => ?_,fun j cond => ?_⟩
      · by_cases here : j = i
        · subst here
          simp [freed.slots j,fresh,own,next]
        · simp [freed.slots j,here,next]
      · simp [next,same,UInt32.ofNat_add]
      · exact le_trans (Nat.le_succ _) freed.bumps
      · have here : j ≠ i := by
          rintro rfl
          exact out ⟨by simp,own⟩
        rw [freed.kept j (by simpa [next,here] using out)]
        simp [next,here]
      · by_cases here : j = i
        · subst here
          rw [freed.kept j (by simp [fresh])]
          have := freed.bumps
          simp only [next,Function.update_self] at this ⊢
          omega
        · have := freed.changed j (by simpa [next,here] using cond)
          simp only [next] at this ⊢
          omega
    · have run : free bp (i :: rest) bps = free bp rest bps := by simp [free,own]
      have freed := ih distinct bps
      have iff : ∀ j, (j ∈ i :: rest ∧ bps.hwBps j = some bp) ↔ j ∈ rest ∧ bps.hwBps j = some bp := fun j => by
        constructor
        · rintro ⟨inside,held⟩
          rcases List.mem_cons.mp inside with rfl | inside
          · exact absurd held own
          · exact ⟨inside,held⟩
        · exact fun ⟨inside,held⟩ => ⟨List.mem_cons_of_mem i inside,held⟩
      rw [run]
      exact ⟨freed.idx,fun j => by simp only [iff,freed.slots j],freed.generation,freed.bumps,
        fun j out => freed.kept j fun cond => out ((iff j).mpr cond),fun j cond => freed.changed j ((iff j).mp cond)⟩

end Slots

section Runs

variable {id : Nat} {ip : Address} {starts exiting : Bool} {fired : List Slot} {e : Event}

/-- The slots of a breakpoint, and what they are to it. -/
def Owns (bps : Group) (bp : Breakpoint) : Prop :=
  ((List.finRange maxHwBps).filter fun i => bps.hwBps i = some bp).map bps.hwIdx = List.range (needs bp)

structure GroupSound (planted : List Breakpoint) (g : Nat) (bps : Group) : Prop where
  generation : bps.hwBpsGeneration = UInt32.ofNat bps.bumps
  changed : ∀ i, bps.changed i ≤ bps.bumps
  fresh : ∀ i, bps.changed i = 0 → bps.hwBps i = none
  slots : ∀ i bp, bps.hwBps i = some bp → bp ∈ planted ∧ bp.ctx = g ∧ Supported bp

/-- Registers are right for the slots that did not change since they were set. -/
structure ThreadSound (bps : Group) (t : Thread) : Prop where
  generation : t.hwBpsRegsGeneration = UInt32.ofNat t.asOf
  asOf : t.asOf ≤ bps.bumps
  encodes : ∀ i, bps.changed i ≤ t.asOf → Encodes t.dr t.dr7 i (bps.hwBps i) (bps.hwIdx i)

structure Sound (s : State) : Prop where
  groups : ∀ g, GroupSound s.planted g (s.groups g)
  owns : ∀ bp ∈ s.planted, Supported bp ∧ Owns (s.groups bp.ctx) bp
  threads : ∀ t ∈ s.threads, ThreadSound (s.groups t.group) t

theorem GroupSound.ready (sound : GroupSound planted g bps) : Ready bps := fun i bp held => (sound.slots i bp held).2.2

theorem Sound.clear (sound : Sound s) (new : bp ∉ s.planted) (g : Nat) (i : Slot) : (s.groups g).hwBps i ≠ some bp :=
  fun held => new ((sound.groups g).slots i bp held).1

/-- A change of the group does not concern registers that were set before it. -/
theorem ThreadSound.moved {bps' : Group} (sound : ThreadSound bps t) (le : bps.bumps ≤ bps'.bumps)
    (slots : ∀ i, (bps'.changed i = bps.changed i ∧ bps'.hwBps i = bps.hwBps i ∧ (bps.hwBps i ≠ none → bps'.hwIdx i = bps.hwIdx i)) ∨
      bps.bumps < bps'.changed i) : ThreadSound bps' t := by
  refine ⟨sound.generation,le_trans sound.asOf le,fun i upToDate => ?_⟩
  rcases slots i with ⟨changed,held,idx⟩ | later
  · have before := sound.encodes i (changed ▸ upToDate)
    rw [held]
    cases kept : bps.hwBps i with
    | none => simpa only [kept,Encodes] using before
    | some bp =>
      rw [idx (by simp [kept])]
      simpa only [kept] using before
  · have := sound.asOf
    omega

/-- Addresses written before a failure do not spoil registers that are right. -/
theorem ThreadSound.partly (sound : ThreadSound bps t) {slots : Slot → Option Breakpoint}
    (agree : ∀ i, bps.hwBps i ≠ none → slots i = bps.hwBps i) (partly : Partly faults slots t dr) :
    ThreadSound bps { t with dr } := by
  refine ⟨sound.generation,sound.asOf,fun i upToDate => ?_⟩
  have before := sound.encodes i upToDate
  cases kept : bps.hwBps i with
  | none => simpa only [kept,Encodes] using before
  | some bp =>
    obtain ⟨on,address,access,length⟩ : Encodes t.dr t.dr7 i (some bp) (bps.hwIdx i) := by simpa only [kept] using before
    refine ⟨on,?_,access,length⟩
    rcases partly i with same | ⟨other,held,written,-⟩
    · exact same.trans address
    · obtain rfl : bp = other := by simpa [agree i (by simp [kept]),kept] using held
      exact written

theorem Written.sound {bps' : Group} {t' : Thread} (written : Written bps t t')
    (generation : bps.hwBpsGeneration = UInt32.ofNat bps.bumps) (slots : bps'.hwBps = bps.hwBps) (idx : bps'.hwIdx = bps.hwIdx) (bumps : bps'.bumps = bps.bumps) : ThreadSound bps' t' := by
  have same := written.same
  refine ⟨?_,?_,fun i _ => ?_⟩
  · rw [same]
    exact generation
  · rw [same,bumps]
  · rw [slots,idx]
    exact written.encodes i

theorem Written.group {t' : Thread} (written : Written bps t t') : t'.group = t.group := by rw [written.same]

/-- Every step of the run: failed writes of a plant do no harm, the generation of the group has not come round to that of the
thread when it resumes, and of the slots whose registers fired none has changed since the registers were set. -/
def Orderly (s : State) : Event → Prop
  | .plant bp faults => Supported bp → needs bp ≤ freeIn (s.groups bp.ctx) (List.finRange maxHwBps) →
      Harmless faults bp.ctx (planned (s.groups bp.ctx) bp) s.threads
  | .resume id _ _ _ => ∀ t ∈ s.find id, t.stoppedByCb = none → t.hwBpsRegsGeneration = (s.groups t.group).hwBpsGeneration →
      t.asOf = (s.groups t.group).bumps
  | .suspend id fired exiting faults => ∀ t ∈ s.find id, exiting = false → ¬Fails faults false t.id (.dr 6) →
      ∀ i, t.dr6 i = true ∨ i ∈ fired →
        (s.groups t.group).hwBps i = none ∨ i ∈ fired ∧ (s.groups t.group).changed i ≤ t.asOf
  | .created _ _ | .exited _ | .remove _ _ | .resumeError _ => True

instance (s : State) : ∀ e, Decidable (Orderly s e)
  | .plant bp faults => inferInstanceAs (Decidable (Supported bp → needs bp ≤ freeIn (s.groups bp.ctx) (List.finRange maxHwBps) →
      Harmless faults bp.ctx (planned (s.groups bp.ctx) bp) s.threads))
  | .resume id _ _ _ => inferInstanceAs (Decidable (∀ t ∈ s.find id, t.stoppedByCb = none →
      t.hwBpsRegsGeneration = (s.groups t.group).hwBpsGeneration → t.asOf = (s.groups t.group).bumps))
  | .suspend id fired exiting faults => inferInstanceAs (Decidable (∀ t ∈ s.find id, exiting = false →
      ¬Fails faults false t.id (.dr 6) → ∀ i, t.dr6 i = true ∨ i ∈ fired →
        (s.groups t.group).hwBps i = none ∨ i ∈ fired ∧ (s.groups t.group).changed i ≤ t.asOf))
  | .created _ _ | .exited _ | .remove _ _ | .resumeError _ => isTrue trivial

/-- The slot as a resuming thread sees it: an instruction breakpoint at its program counter is stepped over. -/
def steppingOver (ip : Address) : Option Breakpoint → Option Breakpoint
  | none => none
  | some bp => if bp.address = ip ∧ bp.onInstruction then none else some bp

/-- What a step promises beyond the state after it. -/
def Outcome (s s' : State) : Event → Prop
  | .plant bp _ =>
    if s'.returned then bp ∈ s'.planted
    else (∀ g, (s'.groups g).hwBps = (s.groups g).hwBps) ∧ List.Forall₂ NothingNew s.threads s'.threads
  | .resume id ip _ _ => s'.returned = true → ∀ t ∈ s'.threads, t.id = id → ∀ i,
      Encodes t.dr t.dr7 i (steppingOver ip ((s'.groups t.group).hwBps i)) ((s'.groups t.group).hwIdx i)
  | .suspend id fired _ _ => ∀ t, s.find id = some t → ∀ t' ∈ s'.threads, t'.id = id → ∀ bp ∈ t'.stoppedByCb.getD [],
      ∃ i ∈ fired, ∃ idx < needs bp, Encodes t.dr t.dr7 i (some bp) idx
  | .created _ _ | .exited _ | .remove _ _ | .resumeError _ => True

theorem slots_needs (supported : Supported bp) : slotsFor bp.accessTypes = some (needs bp) := by
  obtain ⟨n,eq⟩ := Option.isSome_iff_exists.mp supported.1
  simp [needs,eq]

theorem Supported.virtual (supported : Supported bp) : bp.accessTypes &&& virtual ≠ 0 := by
  rcases supported.modes with mode | mode | mode <;> simp [mode,HardwareBreakpoints.virtual]

theorem cpuBpPlant_unsupported (bad : ¬Supported bp) (some_ : bp.accessTypes ≠ 0) : cpuBpPlant s bp faults = .ok (unsupported s) := by
  simp only [cpuBpPlant,Code.require_bind_true some_]
  split
  · rename_i accepted
    cases slots : slotsFor bp.accessTypes with
    | none => rfl
    | some n => exact absurd ⟨by simp [slots],accepted.2⟩ bad
  · rfl

theorem sound_unsupported (sound : Sound s) : Sound (unsupported s) := ⟨sound.groups,sound.owns,sound.threads⟩

theorem nothingNew_self (threads : List Thread) : List.Forall₂ NothingNew threads threads :=
  List.forall₂_same.mpr fun t _ => .refl t

/-- Slots of a group are replaced by ones that are the same, with the roles of those in use. -/
theorem Sound.setGroup (sound : Sound s) {g : Nat} {bps' : Group} (slots : bps'.hwBps = (s.groups g).hwBps)
    (idx : ∀ i, (s.groups g).hwBps i ≠ none → bps'.hwIdx i = (s.groups g).hwIdx i)
    (changed : bps'.changed = (s.groups g).changed) (generation : bps'.hwBpsGeneration = UInt32.ofNat bps'.bumps)
    (le : (s.groups g).bumps ≤ bps'.bumps) : Sound (s.setGroup g bps') := by
  refine ⟨fun other => ?_,fun bp inside => ⟨(sound.owns bp inside).1,?_⟩,fun t inside => ?_⟩
  · by_cases here : other = g
    · subst here
      have before := sound.groups other
      simp only [State.setGroup,Function.update_self]
      exact ⟨generation,fun i => changed ▸ le_trans (before.changed i) le,
        fun i => by rw [changed,slots]; exact before.fresh i,fun i => by rw [slots]; exact before.slots i⟩
    · simpa [State.setGroup,here] using sound.groups other
  · have owns := (sound.owns bp inside).2
    by_cases here : bp.ctx = g
    · subst here
      simp only [State.setGroup,Function.update_self]
      unfold Owns at owns ⊢
      rw [← owns,slots]
      refine List.map_congr_left fun i inside => idx i ?_
      simp [(of_decide_eq_true (List.mem_filter.mp inside).2 : (s.groups bp.ctx).hwBps i = some bp)]
    · simpa [State.setGroup,here] using owns
  · have before := sound.threads t inside
    by_cases here : t.group = g
    · subst here
      simp only [State.setGroup,Function.update_self]
      exact before.moved le fun i => .inl ⟨by rw [changed],by rw [slots],idx i⟩
    · simpa [State.setGroup,here] using before

theorem exists_before {R : Thread → Thread → Prop} {threads threads' : List Thread} (all : List.Forall₂ R threads threads') :
    ∀ t' ∈ threads', ∃ t ∈ threads, R t t' := by
  induction all with
  | nil => simp
  | cons first _ ih =>
    intro t' inside
    rcases List.mem_cons.mp inside with rfl | inside
    · exact ⟨_,List.mem_cons_self,first⟩
    · obtain ⟨t,among,related⟩ := ih t' inside
      exact ⟨t,List.mem_cons_of_mem _ among,related⟩

/-- Threads after a loop that did no harm or returned 0. -/
theorem threads_sound {g : Nat} {bps : Group} (bps' : Group) {threads : List Thread} {groups : Nat → Group}
    (generation : bps.hwBpsGeneration = UInt32.ofNat bps.bumps) (slots : bps'.hwBps = bps.hwBps) (idx : bps'.hwIdx = bps.hwIdx)
    (bumps : bps'.bumps = bps.bumps) (here : groups g = bps')
    (sound : ∀ t ∈ threads, ¬(t.stopped ∧ t.group = g) → ThreadSound (groups t.group) t) {threads' : List Thread}
    (all : List.Forall₂ (Updated g bps) threads threads') : ∀ t' ∈ threads', ThreadSound (groups t'.group) t' := by
  intro t' inside
  obtain ⟨t,among,updated⟩ := exists_before all t' inside
  by_cases own : t.stopped ∧ t.group = g
  · have written : Written bps t t' := by simpa [Updated,own] using updated
    rw [written.group,own.2,here]
    exact written.sound generation slots idx bumps
  · obtain rfl : t' = t := by simpa [Updated,own] using updated
    exact sound t' among own

/-- A successful plant. -/
theorem planted_sound (sound : Sound s) (supported : Supported bp) (new : bp ∉ s.planted) (next : Group)
    (slots : next.hwBps = planned (s.groups bp.ctx) bp) (owns : Owns next bp)
    (idx : ∀ i, (s.groups bp.ctx).hwBps i ≠ none → next.hwIdx i = (s.groups bp.ctx).hwIdx i)
    (changed : next.changed = (s.groups bp.ctx).changed) (bumps : next.bumps = (s.groups bp.ctx).bumps + 1)
    (generation : next.hwBpsGeneration = UInt32.ofNat next.bumps) {threads' : List Thread}
    (all : List.Forall₂ (Updated bp.ctx next) s.threads threads') :
    Sound { s.setGroup bp.ctx (noteChanged bp next) with threads := threads', planted := bp :: s.planted, returned := true } := by
  have before := sound.groups bp.ctx
  have clear := sound.clear new bp.ctx
  have other : ∀ i, planned (s.groups bp.ctx) bp i ≠ some bp → planned (s.groups bp.ctx) bp i = (s.groups bp.ctx).hwBps i := by
    intro i ne
    unfold planned at ne ⊢
    split
    · simp_all
    · rfl
  refine ⟨fun g => ?_,fun b inside => ?_,?_⟩
  · by_cases here : g = bp.ctx
    · subst here
      simp only [State.setGroup,Function.update_self]
      refine ⟨generation,fun i => ?_,fun i zero => ?_,fun i b held => ?_⟩
      · simp only [noteChanged]
        split
        · exact le_rfl
        · rw [changed,bumps]
          exact Nat.le_succ_of_le (before.changed i)
      · simp only [noteChanged,slots,bumps,changed] at zero ⊢
        split at zero
        · omega
        · rename_i ne
          rw [other i ne]
          exact before.fresh i zero
      · have held : planned (s.groups bp.ctx) bp i = some b := by simpa [noteChanged,slots] using held
        by_cases same : b = bp
        · subst same
          exact ⟨by simp,rfl,supported⟩
        · obtain ⟨inside,rest⟩ := before.slots i b (planned_other held same)
          exact ⟨List.mem_cons_of_mem bp inside,rest⟩
    · have before := sound.groups g
      simp only [State.setGroup,Function.update_of_ne here]
      exact ⟨before.generation,before.changed,before.fresh,fun i b held =>
        ⟨List.mem_cons_of_mem bp (before.slots i b held).1,(before.slots i b held).2⟩⟩
  · rcases List.mem_cons.mp inside with rfl | inside
    · refine ⟨supported,?_⟩
      simp only [State.setGroup,Function.update_self]
      exact owns
    · obtain ⟨fits,kept⟩ := sound.owns b inside
      refine ⟨fits,?_⟩
      by_cases here : b.ctx = bp.ctx
      · have ne : b ≠ bp := fun same => new (same ▸ inside)
        rw [here] at kept
        simp only [State.setGroup,here,Function.update_self]
        have same : ∀ i, planned (s.groups bp.ctx) bp i = some b ↔ (s.groups bp.ctx).hwBps i = some b :=
          fun i => ⟨fun held => planned_other held ne,planned_occupied⟩
        unfold Owns at kept ⊢
        rw [← kept]
        simp only [noteChanged,slots,same]
        refine List.map_congr_left fun i inside => idx i ?_
        simp [(of_decide_eq_true (List.mem_filter.mp inside).2 : (s.groups bp.ctx).hwBps i = some b)]
      · simpa [State.setGroup,here] using kept
  · refine threads_sound (noteChanged bp next) generation rfl rfl rfl (by simp [State.setGroup]) (fun t inside _ => ?_) all
    have kept := sound.threads t inside
    by_cases here : t.group = bp.ctx
    · rw [here] at kept
      simp only [State.setGroup,here,Function.update_self]
      refine kept.moved (by simp [noteChanged,bumps]) fun i => ?_
      by_cases taken : planned (s.groups bp.ctx) bp i = some bp
      · exact .inr (by simp [noteChanged,slots,taken,bumps])
      · exact .inl ⟨by simp [noteChanged,slots,taken,changed],by simpa [noteChanged,slots] using other i taken,idx i⟩
    · simpa [State.setGroup,here] using kept

theorem plant_sound (sound : Sound s) (some_ : bp.accessTypes ≠ 0) (new : bp ∉ s.planted) (orderly : Orderly s (.plant bp faults)) :
    ∃ s', cpuBpPlant s bp faults = .ok s' ∧ Sound s' ∧ Outcome s s' (.plant bp faults) := by
  by_cases supported : Supported bp
  · have clear := sound.clear new bp.ctx
    have before := sound.groups bp.ctx
    obtain ⟨bps',m,run,others,count,idx,indices⟩ := place_all bp (s.groups bp.ctx) clear
    have slots : bps'.hwBps = planned (s.groups bp.ctx) bp := by rw [others]
    have changed : bps'.changed = (s.groups bp.ctx).changed := by rw [others]
    have bumps : bps'.bumps = (s.groups bp.ctx).bumps := by rw [others]
    have generation : bps'.hwBpsGeneration = UInt32.ofNat bps'.bumps := by
      rw [others]
      exact before.generation
    have back : (unplace bp bps').hwBps = (s.groups bp.ctx).hwBps := by
      funext i
      simpa [unplace,slots] using unplace_planned clear i
    have call : cpuBpPlant s bp faults = plantSlots s bp faults (needs bp) := by
      simp [cpuBpPlant,Code.require_bind_true some_,supported.virtual,supported.2,slots_needs supported]
    rw [call,plantSlots,run]
    simp only [Code.ok_bind,Code.pure_eq]
    by_cases enough : m = needs bp
    · rw [if_pos enough]
      have nextGeneration : (advance bps').hwBpsGeneration = UInt32.ofNat (advance bps').bumps := by
        simp [advance,generation,UInt32.ofNat_add]
      have ready : Ready (advance bps') := by
        intro i b held
        have held : planned (s.groups bp.ctx) bp i = some b := by simpa [advance,slots] using held
        by_cases same : b = bp
        · exact same ▸ supported
        · exact before.ready i b (planned_other held same)
      rcases setStopped_cases faults ready bp.ctx s.threads with ⟨threads',loop,all⟩ | ⟨threads',loop,-⟩
      · refine ⟨_,rfl,?_,by simp [Outcome,plantStopped,loop]⟩
        rw [plantStopped,loop]
        refine planted_sound sound supported new (advance bps') slots ?_ idx changed (by simp [advance,bumps]) nextGeneration all
        rw [Owns,← enough]
        exact indices
      · have harmless : Harmless faults bp.ctx (advance bps').hwBps s.threads := by
          simpa [advance,slots] using orderly supported (by omega)
        have kept := setStopped_harmless ready harmless loop
        have restored : Sound (s.setGroup bp.ctx (unplace bp (advance bps'))) :=
          sound.setGroup back idx changed nextGeneration (by simp [unplace,advance,bumps])
        refine ⟨_,rfl,?_,?_⟩ <;> rw [plantStopped,loop]
        · refine ⟨restored.groups,restored.owns,fun t' inside => ?_⟩
          obtain ⟨t,among,how⟩ := exists_before kept t' inside
          have sameThread := restored.threads t among
          cases how with
          | same => exact sameThread
          | partly own change _ =>
            refine ThreadSound.partly sameThread (fun i occupied => ?_) change
            simp only [State.setGroup,own,Function.update_self] at occupied ⊢
            change (unplace bp bps').hwBps i ≠ none at occupied
            change bps'.hwBps i = (unplace bp bps').hwBps i
            rw [back] at occupied ⊢
            obtain ⟨b,held⟩ := Option.ne_none_iff_exists'.mp occupied
            rw [slots,held,planned_occupied held]
        · simp only [Outcome]
          refine ⟨fun g => ?_,kept.imp fun t t' how => ?_⟩
          · by_cases here : g = bp.ctx
            · subst here
              simp only [State.setGroup,Function.update_self]
              exact back
            · simp [State.setGroup,here]
          · cases how with
            | same => exact .refl t
            | partly _ _ nothing => exact nothing
    · rw [if_neg enough]
      have restored : Sound (s.setGroup bp.ctx (unplace bp bps')) := sound.setGroup back idx changed generation (by simp [unplace,bumps])
      refine ⟨_,rfl,sound_unsupported restored,?_⟩
      simp only [Outcome,unsupported]
      refine ⟨fun g => ?_,nothingNew_self s.threads⟩
      by_cases here : g = bp.ctx
      · subst here
        simp only [State.setGroup,Function.update_self]
        exact back
      · simp [State.setGroup,here]
  · exact ⟨_,cpuBpPlant_unsupported supported some_,sound_unsupported sound,by
      simpa [Outcome,unsupported] using nothingNew_self s.threads⟩

theorem remove_sound (sound : Sound s) (bp : Breakpoint) (faults : List Failure) : Sound (cpuBpRemove s bp faults) := by
  have before := sound.groups bp.ctx
  have freed := free_freed bp (List.finRange maxHwBps) (List.nodup_finRange _) (s.groups bp.ctx)
  generalize after : free bp (List.finRange maxHwBps) (s.groups bp.ctx) = bps at freed
  have slots : ∀ i, bps.hwBps i = if (s.groups bp.ctx).hwBps i = some bp then none else (s.groups bp.ctx).hwBps i :=
    fun i => by simpa using freed.slots i
  have kept : ∀ i, (s.groups bp.ctx).hwBps i ≠ some bp → bps.changed i = (s.groups bp.ctx).changed i :=
    fun i other => freed.kept i fun own => other own.2
  have generation := freed.generation before.generation
  have other : ∀ i b, bps.hwBps i = some b ↔ b ≠ bp ∧ (s.groups bp.ctx).hwBps i = some b := by
    intro i b
    rw [slots i]
    split
    · simp_all
      exact fun ne => Ne.symm ne
    · constructor
      · exact fun held => ⟨fun same => by simp_all,held⟩
      · exact And.right
  have ready : Ready bps := fun i b held => before.ready i b ((other i b).mp held).2
  have unchanged : ∀ t ∈ s.threads, ThreadSound ((s.setGroup bp.ctx bps).groups t.group) t := by
    intro t inside
    have sameThread := sound.threads t inside
    by_cases here : t.group = bp.ctx
    · rw [here] at sameThread
      simp only [State.setGroup,here,Function.update_self]
      refine sameThread.moved freed.bumps fun i => ?_
      by_cases own : (s.groups bp.ctx).hwBps i = some bp
      · exact .inr (freed.changed i ⟨by simp,own⟩).1
      · exact .inl ⟨kept i own,by rw [slots i,if_neg own],fun _ => by rw [freed.idx]⟩
    · simpa [State.setGroup,here] using sameThread
  have groups : ∀ g, GroupSound (s.planted.filter (· ≠ bp)) g ((s.setGroup bp.ctx bps).groups g) := by
    intro g
    by_cases here : g = bp.ctx
    · subst here
      simp only [State.setGroup,Function.update_self]
      refine ⟨generation,fun i => ?_,fun i zero => ?_,fun i b held => ?_⟩
      · by_cases own : (s.groups bp.ctx).hwBps i = some bp
        · exact (freed.changed i ⟨by simp,own⟩).2
        · rw [kept i own]
          exact le_trans (before.changed i) freed.bumps
      · by_cases own : (s.groups bp.ctx).hwBps i = some bp
        · rw [slots i,if_pos own]
        · rw [slots i,if_neg own]
          exact before.fresh i (kept i own ▸ zero)
      · obtain ⟨ne,held⟩ := (other i b).mp held
        obtain ⟨inside,rest⟩ := before.slots i b held
        exact ⟨by simp [inside,ne],rest⟩
    · have before := sound.groups g
      simp only [State.setGroup,Function.update_of_ne here]
      refine ⟨before.generation,before.changed,before.fresh,fun i b held => ?_⟩
      obtain ⟨inside,own,fits⟩ := before.slots i b held
      have ne : b ≠ bp := fun same => here (by rw [← own,same])
      exact ⟨by simp [inside,ne],own,fits⟩
  have owns : ∀ b ∈ s.planted.filter (· ≠ bp), Supported b ∧ Owns ((s.setGroup bp.ctx bps).groups b.ctx) b := by
    intro b inside
    obtain ⟨inside,ne⟩ : b ∈ s.planted ∧ b ≠ bp := by simpa using inside
    obtain ⟨fits,owned⟩ := sound.owns b inside
    refine ⟨fits,?_⟩
    by_cases here : b.ctx = bp.ctx
    · rw [here] at owned
      simp only [State.setGroup,here,Function.update_self]
      unfold Owns at owned ⊢
      rw [← owned]
      simp [other,ne,freed.idx]
    · simpa [State.setGroup,here] using owned
  simp only [cpuBpRemove,after]
  rcases setStopped_cases faults ready bp.ctx s.threads with ⟨threads',loop,all⟩ | ⟨threads',loop,all⟩
  · rw [loop]
    exact ⟨groups,owns,threads_sound bps generation rfl rfl rfl (by simp [State.setGroup]) (fun t inside _ => unchanged t inside) all⟩
  · rw [loop]
    refine ⟨groups,owns,fun t' inside => ?_⟩
    obtain ⟨t,among,how⟩ := exists_before all t' inside
    have sameThread := unchanged t among
    cases how with
    | kept => exact sameThread
    | written own change =>
      simp only [State.setGroup,change.group,own,Function.update_self]
      exact change.sound generation rfl rfl rfl
    | partly own change =>
      refine ThreadSound.partly sameThread (fun i _ => ?_) change
      simp [State.setGroup,own]

theorem State.find_mem (found : s.find id = some t) : t ∈ s.threads ∧ t.id = id := by
  refine ⟨List.mem_of_find?_eq_some found,?_⟩
  simpa using List.find?_some found

theorem Sound.setThread (sound : Sound s) (own : ThreadSound (s.groups t.group) t) : Sound (s.setThread t) := by
  refine ⟨sound.groups,sound.owns,fun u inside => ?_⟩
  obtain ⟨other,among,rfl⟩ := List.mem_map.mp inside
  split
  · exact own
  · exact sound.threads other among

theorem setThread_same {u : Thread} (inside : u ∈ (s.setThread t).threads) (same : u.id = t.id) : u = t := by
  obtain ⟨other,_,rfl⟩ := List.mem_map.mp inside
  split at same <;> simp_all

/-- What the calls for one thread leave of it. -/
theorem ThreadSound.congr {t' : Thread} (sound : ThreadSound bps t) (dr : t'.dr = t.dr) (dr7 : t'.dr7 = t.dr7)
    (generation : t'.hwBpsRegsGeneration = t.hwBpsRegsGeneration) (asOf : t'.asOf = t.asOf) : ThreadSound bps t' :=
  ⟨by rw [generation,asOf]; exact sound.generation,asOf ▸ sound.asOf,fun i upToDate => by
    rw [dr,dr7]; exact sound.encodes i (asOf ▸ upToDate)⟩

/-- `cpu_bp_on_resume` -/
theorem cpuBpOnResume_cases (sound : Sound s) (inside : t ∈ s.threads) (ip : Address) (faults : List Failure)
    (orderly : t.stoppedByCb = none → t.hwBpsRegsGeneration = (s.groups t.group).hwBpsGeneration →
      t.asOf = (s.groups t.group).bumps) :
    ∃ t' done, cpuBpOnResume s t ip faults = (t',done) ∧ t'.id = t.id ∧ t'.group = t.group ∧ ThreadSound (s.groups t.group) t' ∧
      (done.isSome → ∀ i, Encodes t'.dr t'.dr7 i ((s.groups t.group).hwBps i) ((s.groups t.group).hwIdx i)) := by
  have before := sound.groups t.group
  have own := sound.threads t inside
  unfold cpuBpOnResume
  by_cases need : t.stoppedByCb ≠ none ∨ t.hwBpsRegsGeneration ≠ (s.groups t.group).hwBpsGeneration
  · simp only [if_pos need]
    by_cases fails : Fails faults false t.id .pc
    · exact ⟨t,none,by simp [fails],rfl,rfl,own,by simp⟩
    · rw [if_neg fails]
      rcases setDebugRegs_cases faults before.ready (some ip) t with ⟨t',run,written,-⟩ | ⟨dr,run,-,partly⟩
      · refine ⟨t',some false,run,by rw [written.same],by rw [written.same],?_,fun _ => written.encodes⟩
        exact written.sound before.generation rfl rfl rfl
      · exact ⟨{ t with dr },none,run,rfl,rfl,own.partly (fun _ _ => rfl) partly,by simp⟩
  · rw [if_neg need]
    rw [not_or,not_not,not_not] at need
    refine ⟨t,some false,rfl,rfl,rfl,own,fun _ i => own.encodes i ?_⟩
    rw [orderly need.1 need.2]
    exact before.changed i

theorem steppingOver_eq {slot : Option Breakpoint} (data : ∀ bp, slot = some bp → Supported bp) (ip : Address) :
    steppingOver ip slot = slot := by
  cases slot with
  | none => rfl
  | some bp => simp [steppingOver,(data bp rfl).not_instruction]

theorem resume_sound (sound : Sound s) (enabled : Enabled s (.resume id ip faults starts))
    (orderly : Orderly s (.resume id ip faults starts)) :
    ∃ s', step s (.resume id ip faults starts) = .ok s' ∧ Sound s' ∧ Outcome s s' (.resume id ip faults starts) := by
  obtain ⟨t,found,-⟩ := enabled
  have found : s.find id = some t := found
  obtain ⟨inside,named⟩ := State.find_mem found
  obtain ⟨t',done,call,sameId,sameGroup,own,encodes⟩ := cpuBpOnResume_cases sound inside ip faults (orderly t found)
  simp only [step,found,call]
  cases done with
  | none =>
    refine ⟨_,rfl,?_,by simp [Outcome]⟩
    have next := sound.setThread (t := t') (by rwa [sameGroup])
    exact ⟨next.groups,next.owns,next.threads⟩
  | some _ =>
    let resumed : Thread := if starts then { t' with stopped := false, stoppedByCb := none } else t'
    have fields : resumed.id = t'.id ∧ resumed.group = t'.group ∧ resumed.dr = t'.dr ∧ resumed.dr7 = t'.dr7 ∧
        resumed.hwBpsRegsGeneration = t'.hwBpsRegsGeneration ∧ resumed.asOf = t'.asOf := by
      simp only [resumed]
      split <;> simp
    obtain ⟨id_,group_,dr_,dr7_,generation_,asOf_⟩ := fields
    have next := sound.setThread (t := resumed) (by rw [group_,sameGroup]; exact own.congr dr_ dr7_ generation_ asOf_)
    refine ⟨{ s.setThread resumed with returned := true },rfl,⟨next.groups,next.owns,next.threads⟩,fun _ u among same i => ?_⟩
    have here : u = resumed := setThread_same among (by rw [same,id_,sameId,named])
    subst here
    rw [group_,sameGroup,dr_,dr7_]
    change Encodes t'.dr t'.dr7 i (steppingOver ip ((s.groups t.group).hwBps i)) ((s.groups t.group).hwIdx i)
    rw [steppingOver_eq (fun bp held => (sound.groups t.group).ready i bp held)]
    exact encodes rfl i

/-- The loop of `cpu_bp_on_suspend` only adds breakpoints of slots whose bit is set. -/
theorem report_spec (bps : Group) (l : List Slot) (t : Thread) :
    ∃ cb, report bps l t = { t with stoppedByCb := cb } ∧
      ∀ bp ∈ cb.getD [], bp ∈ t.stoppedByCb.getD [] ∨ ∃ i, t.dr6 i = true ∧ bps.hwBps i = some bp := by
  induction l generalizing t with
  | nil => exact ⟨t.stoppedByCb,rfl,fun bp inside => .inl inside⟩
  | cons i rest ih =>
    unfold report
    by_cases set_ : t.dr6 i = true
    · cases held : bps.hwBps i with
      | none => simpa [set_] using ih t
      | some bp =>
        simp only [set_,if_true]
        split
        · exact ih t
        · obtain ⟨cb,eq,from_⟩ := ih { t with stoppedByCb := some (t.stoppedByCb.getD [] ++ [bp]) }
          refine ⟨cb,eq,fun b inside => ?_⟩
          rcases from_ b inside with old | slot
          · rcases List.mem_append.mp old with old | new
            · exact .inl old
            · obtain rfl := List.mem_singleton.mp new
              exact .inr ⟨i,set_,held⟩
          · exact .inr slot
    · simpa [set_] using ih t

theorem suspend_spec (t : Thread) (exiting : Bool) (faults : List Failure) :
    ∃ t' returned, cpuBpOnSuspend s t exiting faults = (t',returned) ∧ t'.id = t.id ∧ t'.group = t.group ∧ t'.dr = t.dr ∧
      t'.dr7 = t.dr7 ∧ t'.hwBpsRegsGeneration = t.hwBpsRegsGeneration ∧ t'.asOf = t.asOf ∧
      ∀ bp ∈ t'.stoppedByCb.getD [], bp ∈ t.stoppedByCb.getD [] ∨
        exiting = false ∧ ¬Fails faults false t.id (.dr 6) ∧ ∃ i, t.dr6 i = true ∧ (s.groups t.group).hwBps i = some bp := by
  unfold cpuBpOnSuspend
  cases exiting with
  | true => exact ⟨t,true,rfl,rfl,rfl,rfl,rfl,rfl,rfl,fun bp inside => .inl inside⟩
  | false =>
    by_cases fails : Fails faults false t.id (.dr 6)
    · exact ⟨t,false,by simp [fails],rfl,rfl,rfl,rfl,rfl,rfl,fun bp inside => .inl inside⟩
    · by_cases any : ∃ i, t.dr6 i = true
      · obtain ⟨cb,eq,from_⟩ := report_spec (s.groups t.group) (List.finRange maxHwBps) t
        have named : ∀ bp ∈ cb.getD [], bp ∈ t.stoppedByCb.getD [] ∨
            false = false ∧ ¬Fails faults false t.id (.dr 6) ∧ ∃ i, t.dr6 i = true ∧ (s.groups t.group).hwBps i = some bp := by
          intro bp inside
          exact (from_ bp inside).imp id fun slot => ⟨rfl,fails,slot⟩
        by_cases fails' : Fails faults true t.id (.dr 6)
        · exact ⟨{ t with stoppedByCb := cb },false,by simp [fails,any,eq,fails'],rfl,rfl,rfl,rfl,rfl,rfl,named⟩
        · exact ⟨{ t with stoppedByCb := cb, dr6 := fun _ => false },true,by simp [fails,any,eq,fails'],rfl,rfl,rfl,rfl,rfl,rfl,named⟩
      · exact ⟨t,true,by simp [fails,any],rfl,rfl,rfl,rfl,rfl,rfl,fun bp inside => .inl inside⟩

theorem Owns.idx_lt (owns : Owns bps bp) (held : bps.hwBps i = some bp) : bps.hwIdx i < needs bp := by
  have inside : bps.hwIdx i ∈ ((List.finRange maxHwBps).filter fun i => bps.hwBps i = some bp).map bps.hwIdx :=
    List.mem_map.mpr ⟨i,by simp [held],rfl⟩
  rw [owns] at inside
  exact List.mem_range.mp inside

theorem suspend_sound (sound : Sound s) (enabled : Enabled s (.suspend id fired exiting faults))
    (orderly : Orderly s (.suspend id fired exiting faults)) :
    ∃ s', step s (.suspend id fired exiting faults) = .ok s' ∧ Sound s' ∧ Outcome s s' (.suspend id fired exiting faults) := by
  obtain ⟨t,found,-⟩ := enabled
  have found : s.find id = some t := found
  obtain ⟨inside,named⟩ := State.find_mem found
  have own := sound.threads t inside
  let stopped : Thread := { t with stopped := true, stoppedByCb := none, dr6 := fun i => t.dr6 i || fired.contains i }
  obtain ⟨t',returned,call,id_,group_,dr_,dr7_,generation_,asOf_,reported⟩ := suspend_spec (s := s) stopped exiting faults
  have next := sound.setThread (t := t') (by rw [group_]; exact own.congr dr_ dr7_ generation_ asOf_)
  refine ⟨{ s.setThread t' with returned },?_,⟨next.groups,next.owns,next.threads⟩,?_⟩
  · simp only [step,found]
    exact congrArg (fun r => (pure { s.setThread r.1 with returned := r.2 } : Code State)) call
  · intro t₀ found' u among same bp listed
    obtain rfl : t = t₀ := Option.some.inj (found.symm.trans found')
    have here : u = t' := setThread_same among (by rw [same,id_]; exact named.symm)
    subst here
    rcases reported bp listed with old | ⟨running,reads,i,bit,held⟩
    · simp [stopped] at old
    · have bit : t.dr6 i = true ∨ i ∈ fired := by simpa [stopped] using bit
      rcases orderly t found running reads i bit with free | ⟨set_,upToDate⟩
      · exact absurd (held.symm.trans free) (by simp)
      · have encodes := own.encodes i upToDate
        obtain ⟨isPlanted,isOwn,-⟩ := (sound.groups t.group).slots i bp held
        have owns := (sound.owns bp isPlanted).2
        rw [isOwn] at owns
        exact ⟨i,set_,_,owns.idx_lt held,by rw [← held]; exact encodes⟩

theorem step_sound (sound : Sound s) (enabled : Enabled s e) (orderly : Orderly s e) :
    ∃ s', step s e = .ok s' ∧ Sound s' ∧ Outcome s s' e := by
  cases e with
  | created id group =>
    refine ⟨_,rfl,⟨sound.groups,sound.owns,fun t inside => ?_⟩,trivial⟩
    rcases List.mem_cons.mp inside with rfl | inside
    · refine ⟨rfl,Nat.zero_le _,fun i upToDate => ?_⟩
      rw [(sound.groups _).fresh i (Nat.le_zero.mp upToDate)]
      exact enables_zero i
    · exact sound.threads t inside
  | exited id => exact ⟨_,rfl,⟨sound.groups,sound.owns,fun t inside => sound.threads t (List.mem_filter.mp inside).1⟩,trivial⟩
  | plant bp faults => exact plant_sound sound enabled.1 enabled.2 orderly
  | remove bp faults => exact ⟨_,rfl,remove_sound sound bp faults,trivial⟩
  | resume id ip faults starts => exact resume_sound sound enabled orderly
  | resumeError id =>
    obtain ⟨t,found,-⟩ := enabled
    have found : s.find id = some t := found
    obtain ⟨inside,-⟩ := State.find_mem found
    refine ⟨s.setThread { t with stoppedByCb := none },by simp [step,found],?_,trivial⟩
    exact sound.setThread ((sound.threads t inside).congr rfl rfl rfl rfl)
  | suspend id fired exiting faults => exact suspend_sound sound enabled orderly

/-- Breakpoints that are planted, and only they, have slots: as many as they need, with numbers from 0 on. -/
structure Consistent (s : State) : Prop where
  owns : ∀ bp ∈ s.planted, Supported bp ∧ Owns (s.groups bp.ctx) bp
  owned : ∀ g i bp, (s.groups g).hwBps i = some bp → bp ∈ s.planted ∧ bp.ctx = g

theorem Sound.consistent (sound : Sound s) : Consistent s :=
  ⟨sound.owns,fun g i bp held => ⟨((sound.groups g).slots i bp held).1,((sound.groups g).slots i bp held).2.1⟩⟩

theorem initial_sound : Sound .initial :=
  ⟨fun _ => ⟨rfl,fun _ => le_rfl,fun _ _ => rfl,nofun⟩,nofun,nofun⟩

/-- The last step of an orderly run, and with it every step. -/
theorem hardware_breakpoints_consistent (events : List Event) (e : Event)
    (meets : process.Meets Orderly .initial (events ++ [e])) :
    (∃ s s', process.exec .initial events = .ok s ∧ process.step s e = .ok s' ∧ Consistent s' ∧ Outcome s s' e) ∨
      process.exec .initial (events ++ [e]) = .error .stuck := by
  rcases process.exec_last Sound (fun s e s' => Outcome s s' e) (fun s e => step_sound) initial_sound meets with
    ⟨s,s',run,step,sound,outcome⟩ | none_
  · exact .inl ⟨s,s',run,step,sound.consistent,outcome⟩
  · exact .inr none_

/-- A watch of writes, and one of reads that has two slots. -/
def writeWatch : Breakpoint := ⟨1,0,0x1000,4,dataWrite ||| virtual⟩
def readWatch : Breakpoint := ⟨2,0,0x2000,8,dataRead ||| virtual⟩

/-- Two threads; one plant that the first of them refuses, a watch that is hit, a removal of which one thread does not take notice. -/
theorem hardware_breakpoints_consistent_example :
    (∃ s s', process.exec .initial
        [.created 1 0,.suspend 1 [] false [],.plant writeWatch [⟨1,true,.dr 7⟩],.plant writeWatch [],.plant readWatch [],
          .resume 1 0 [] true,.created 2 0,.suspend 2 [] false [],.resume 2 0 [] true,.suspend 1 [2] false [],
          .remove writeWatch [⟨1,true,.dr 1⟩],.resume 1 0 [] true] = .ok s ∧
        process.step s (.suspend 2 [1,2] false []) = .ok s' ∧ Consistent s' ∧ Outcome s s' (.suspend 2 [1,2] false [])) ∨
      process.exec .initial
        [.created 1 0,.suspend 1 [] false [],.plant writeWatch [⟨1,true,.dr 7⟩],.plant writeWatch [],.plant readWatch [],
          .resume 1 0 [] true,.created 2 0,.suspend 2 [] false [],.resume 2 0 [] true,.suspend 1 [2] false [],
          .remove writeWatch [⟨1,true,.dr 1⟩],.resume 1 0 [] true,.suspend 2 [1,2] false []] = .error .stuck :=
  hardware_breakpoints_consistent _ _ (by decide +kernel)

/-- A running thread has the address of a watch that is gone, and its hit is taken for one of the watch that has the slot now.
A plant that fails at the second thread leaves the watch in the registers of the first, which resumes with it. -/
theorem watch_misattributed :
    (∃ final, process.exec .initial
        [.created 1 0,.suspend 1 [] false [],.plant writeWatch [],.resume 1 0 [] true,.remove writeWatch [],
          .plant { writeWatch with name := 3, address := 0x3000 } [],.suspend 1 [0] false []] = .ok final ∧
        final.threads.map (fun t => (t.dr 0,t.stoppedByCb)) = [(0x1000,some [{ writeWatch with name := 3, address := 0x3000 }])]) ∧
      ∃ final, process.exec .initial
        [.created 1 0,.suspend 1 [] false [],.created 2 0,.suspend 2 [] false [],.plant writeWatch [⟨1,true,.dr 0⟩],
          .resume 2 0 [] true] = .ok final ∧
        final.returned = true ∧ (final.groups 0).hwBps 0 = none ∧
        final.threads.map (fun t => (t.id,enables t.dr7 0,t.dr 0)) = [(2,true,0x1000),(1,false,0)] := by
  decide +kernel

end Runs

end Tcf.HardwareBreakpoints
