import Tcf.FrameTableExact

/-! Programs of call frame instructions, from the CIE to the row of an address. -/
namespace Tcf.Frames

open Dwarf ByteNumbers

section Steps

variable {s : FrameSection} {w : World} {m m' : TableState} {pos : Nat} {text : Option Nat} {funcAddr : Nat} {i : FrameInstruction}
  {later program : List FrameInstruction}

def programBytes (s : FrameSection) (program : List FrameInstruction) : List UInt8 := program.flatMap (FrameInstruction.bytes s.bigEndian)

/-- A program is at a position of the section. -/
def Placed (s : FrameSection) (pos : Nat) (program : List FrameInstruction) : Prop := ∃ rest, s.data.drop pos = programBytes s program ++ rest

/-- What the instructions of an FDE do not change -/
def World.context (s : FrameSection) (w : World) : Factors × CfaRule × (Nat → RegisterRules) := (w.factors,shownCfa s w.cieRegs,w.cieRule s)

instance : Steady (World.context s) := ⟨fun _ _ => rfl,fun _ _ => rfl,fun _ _ => rfl,fun _ _ => rfl⟩

instance : SteadyCie s (World.context s) where
  grown w reg := by
    simp only [World.context,World.factors,shownCfa,Prod.mk.injEq,true_and]
    funext n
    exact ruleAt_grown reg n

theorem bytes_filled (s : FrameSection) (i : FrameInstruction) : 0 < (i.bytes s.bigEndian).length := by simp [FrameInstruction.bytes]

theorem programBytes_cons : programBytes s (i :: later) = i.bytes s.bigEndian ++ programBytes s later := by simp [programBytes]

theorem Placed.split (placed : Placed s pos (i :: later)) :
    (∃ rest, s.data.drop pos = i.bytes s.bigEndian ++ rest) ∧ Placed s (pos + (i.bytes s.bigEndian).length) later := by
  obtain ⟨rest,placed⟩ := placed
  rw [programBytes_cons,List.append_assoc] at placed
  exact ⟨⟨_,placed⟩,rest,drop_next placed⟩

theorem applied_location (s : FrameSection) (pos : Nat) (i : FrameInstruction) : (applied s pos w i).rules.location =
    i.advance.elim w.rules.location fun delta => (w.rules.location + delta * w.rules.codeAlignment % 2 ^ 32) % 2 ^ 64 := by
  cases i with
  | restoreState =>
    simp only [applied,World.popped]
    split <;> rfl
  | _ => rfl

theorem applied_forward (s : FrameSection) (pos : Nat) (i : FrameInstruction) (small : w.rules.location < 2 ^ 64) :
    (applied s pos w i).rules.location = (w.rules.location + scaledDelta (setting s w.factors) i) % 2 ^ 64 := by
  rw [applied_location,scaledDelta]
  cases i.advance with
  | none =>
    simp only [Option.elim_none,Option.getD_none,Nat.zero_mul,Nat.zero_mod]
    omega
  | some delta => rfl

/-- An instruction of a valid program is a step of its table, and is read to its end. -/
theorem exec_step (text : Option Nat) (funcAddr : Nat) (readable : i.Readable) (fits : i.Fits) (small : s.data.length < 2 ^ 64) (follows : Follows s w m)
    (valid : step (setting s w.factors) (w.initial s) m i = some m') (placed : Placed s pos (i :: later)) :
    execStackFrameInstruction s text funcAddr (w.goto s pos) = .ok () ((applied s pos w i).goto s (pos + (i.bytes s.bigEndian).length)) ∧
      Follows s (applied s pos w i) m' ∧ (applied s pos w i).context s = w.context s := by
  obtain ⟨⟨rest,here⟩,-⟩ := placed.split
  have nested : i = .restoreState → w.regsStack ≠ [] := by
    rintro rfl empty
    have stack := follows.stack
    rw [empty] at stack
    simp [step,← stack] at valid
  have run := exec_bytes text funcAddr readable fits nested small here
  have kept : Keeps (World.context s) (execStackFrameInstruction s text funcAddr) := execStackFrameInstruction_keeps s text funcAddr
  have same := kept.ok run
  exact ⟨run,follows_applied follows fits here valid,same⟩

theorem context_setting {w' : World} (same : w'.context s = w.context s) : setting s w'.factors = setting s w.factors ∧ w'.initial s = w.initial s := by
  simp only [World.context,Prod.mk.injEq] at same
  refine ⟨by rw [same.1],?_⟩
  funext n
  rw [World.initial,World.initial,same.2.2]

variable {rounds stop : Nat}

theorem execUntil_round (inside : pos < stop) : execUntil s text stop (rounds + 1) (w.goto s pos) =
    (execStackFrameInstruction s text 0 >>= fun _ => execUntil s text stop rounds) (w.goto s pos) := by
  rw [execUntil]
  rw [bind_ok getPos_goto,if_pos inside]

theorem execUntil_end (outside : stop ≤ pos) : execUntil s text stop (rounds + 1) (w.goto s pos) = .ok () (w.goto s pos) := by
  rw [execUntil]
  rw [bind_ok getPos_goto,if_neg (by omega)]
  rfl

/-- The instructions of a CIE that can be read are run to their end. -/
theorem execUntil_bytes (text : Option Nat) (readable : ∀ i ∈ program, i.Readable) (fits : ∀ i ∈ program, i.Fits) (small : s.data.length < 2 ^ 64)
    (follows : Follows s w m) (valid : program.foldlM (step (setting s w.factors) (w.initial s)) m = some m') (placed : Placed s pos program)
    (enough : program.length < rounds) : ∃ w', execUntil s text (pos + (programBytes s program).length) rounds (w.goto s pos) =
      .ok () (w'.goto s (pos + (programBytes s program).length)) ∧ Follows s w' m' ∧ w'.context s = w.context s := by
  induction program generalizing w m pos rounds with
  | nil =>
    cases valid
    obtain ⟨rounds,rfl⟩ := Nat.exists_eq_add_one_of_ne_zero (Nat.ne_of_gt enough)
    exact ⟨w,execUntil_end (by simp [programBytes]),follows,rfl⟩
  | cons i later ih =>
    obtain ⟨rounds,rfl⟩ := Nat.exists_eq_add_one_of_ne_zero (Nat.ne_of_gt (Nat.zero_lt_of_lt enough))
    rw [List.foldlM_cons,Option.bind_eq_bind,Option.bind_eq_some_iff] at valid
    obtain ⟨next,first,others⟩ := valid
    obtain ⟨run,follows,same⟩ := exec_step text 0 (readable i (List.mem_cons_self ..)) (fits i (List.mem_cons_self ..))
      small follows first placed
    obtain ⟨sameSetting,sameInitial⟩ := context_setting same
    rw [← sameSetting,← sameInitial] at others
    obtain ⟨w',rest,done⟩ := ih (fun i member => readable i (List.mem_cons_of_mem _ member)) (fun i member => fits i (List.mem_cons_of_mem _ member))
      follows others placed.split.2 (by simpa using enough)
    have positive := bytes_filled s i
    refine ⟨w',?_,done.1,done.2.trans same⟩
    rw [programBytes_cons,List.length_append,execUntil_round (by omega),bind_ok run,← Nat.add_assoc,rest]

/-- Instructions of a CIE that are run to their end can be read, and lead to the rules of the table. -/
theorem execUntil_ok {w' : World} (fits : ∀ i ∈ program, i.Fits) (small : s.data.length < 2 ^ 64)
    (follows : Follows s w m) (valid : program.foldlM (step (setting s w.factors) (w.initial s)) m = some m') (placed : Placed s pos program)
    (run : execUntil s text (pos + (programBytes s program).length) rounds (w.goto s pos) = .ok () w') :
    (∀ i ∈ program, i.Readable) ∧ Follows s w' m' ∧ w'.context s = w.context s := by
  induction program generalizing w m pos rounds with
  | nil =>
    cases valid
    cases rounds with
    | zero => cases run
    | succ rounds =>
      rw [execUntil_end (by simp [programBytes])] at run
      cases run
      exact ⟨by simp,⟨follows.row,follows.stack⟩,rfl⟩
  | cons i later ih =>
    have positive := bytes_filled s i
    cases rounds with
    | zero => cases run
    | succ rounds =>
      rw [List.foldlM_cons,Option.bind_eq_bind,Option.bind_eq_some_iff] at valid
      obtain ⟨next,first,others⟩ := valid
      rw [programBytes_cons,List.length_append,execUntil_round (by omega),← Nat.add_assoc] at run
      have fit := fits i (List.mem_cons_self ..)
      by_cases readable : i.Readable
      · obtain ⟨step,follows,same⟩ := exec_step text 0 readable fit small follows first placed
        rw [bind_ok step] at run
        obtain ⟨sameSetting,sameInitial⟩ := context_setting same
        rw [← sameSetting,← sameInitial] at others
        obtain ⟨rest,done,kept⟩ := ih (fun i member => fits i (List.mem_cons_of_mem _ member)) follows others placed.split.2 run
        rw [List.forall_mem_cons]
        exact ⟨⟨readable,rest⟩,done,kept.trans same⟩
      · obtain ⟨⟨rest,here⟩,-⟩ := placed.split
        obtain ⟨w1,fails⟩ := exec_unread text 0 w readable fit here
        rw [bind_error fails] at run
        cases run

/-- Where the instructions that are executed have come to. -/
def reached (f : Setting) (ip location : Nat) (program : List FrameInstruction) : Nat :=
  location + ((executed f ip location program).map (scaledDelta f)).sum

theorem executed_first (f : Setting) (ip location : Nat) (i : FrameInstruction) (later : List FrameInstruction) :
    i ∈ executed f ip location (i :: later) := by
  rw [executed]
  split <;> simp

theorem reached_first {f : Setting} {ip location : Nat} (plain : reached f ip location (i :: later) < 2 ^ 64) : location + scaledDelta f i < 2 ^ 64 := by
  unfold reached executed at plain
  split at plain <;> simp at plain <;> omega

theorem execTo_round {addr range ip location0 : Nat} (inside : pos < stop) :
    execTo s text addr range ip stop (rounds + 1) location0 (w.goto s pos) = (execStackFrameInstruction s text addr >>= fun _ => get >>= fun w =>
      if w.rules.location > ip then pure location0 else execTo s text addr range ip stop rounds w.rules.location) (w.goto s pos) := by
  rw [execTo,bind_ok getPos_goto,if_neg (by omega)]

/-- The loop ends with the first instruction that goes beyond `ip`. -/
theorem execTo_stop {addr range ip location0 next : Nat} {w' : World} (inside : pos < stop)
    (run : execStackFrameInstruction s text addr (w.goto s pos) = .ok () (w'.goto s next)) (beyond : w'.rules.location > ip) :
    execTo s text addr range ip stop (rounds + 1) location0 (w.goto s pos) = .ok location0 (w'.goto s next) := by
  rw [execTo_round inside,bind_ok run,bind_ok (get_run _),if_pos (show (w'.goto s next).rules.location > ip from beyond)]
  rfl

theorem execTo_next {addr range ip location0 next : Nat} {w' : World} (inside : pos < stop)
    (run : execStackFrameInstruction s text addr (w.goto s pos) = .ok () (w'.goto s next)) (before : ¬w'.rules.location > ip) :
    execTo s text addr range ip stop (rounds + 1) location0 (w.goto s pos) =
      execTo s text addr range ip stop rounds w'.rules.location (w'.goto s next) := by
  rw [execTo_round inside,bind_ok run,bind_ok (get_run _),if_neg (show ¬(w'.goto s next).rules.location > ip from before)]
  rfl

theorem execTo_end {addr range ip location0 : Nat} (outside : stop ≤ pos) :
    execTo s text addr range ip stop (rounds + 1) location0 (w.goto s pos) =
      .ok location0 ({ w with rules.location := (addr + range) % 2 ^ 64 }.goto s pos) := by
  rw [execTo,bind_ok getPos_goto,if_pos (by omega)]
  rfl

/-- The row of an address, when all that is executed can be read. -/
theorem execTo_bytes {addr range ip location0 : Nat} {rows : List (Nat × Row)} (small : s.data.length < 2 ^ 64) (below : ip < 2 ^ 64)
    (before : w.rules.location ≤ ip)
    (readable : ∀ i ∈ executed (setting s w.factors) ip w.rules.location program, i.Readable)
    (fits : ∀ i ∈ executed (setting s w.factors) ip w.rules.location program, i.Fits)
    (plain : reached (setting s w.factors) ip w.rules.location program < 2 ^ 64) (follows : Follows s w m)
    (valid : table (setting s w.factors) (w.initial s) w.rules.location m program = some rows) (placed : Placed s pos program)
    (enough : program.length < rounds) :
    ∃ last w' row, execTo s text addr range ip (pos + (programBytes s program).length) rounds location0 (w.goto s pos) = .ok last w' ∧
      rowFor ip rows = some row ∧ shownRow s w'.rules.returnAddressRegister w'.frameRegs = row := by
  induction program generalizing w m pos rounds location0 rows with
  | nil =>
    cases valid
    obtain ⟨rounds,rfl⟩ := Nat.exists_eq_add_one_of_ne_zero (Nat.ne_of_gt enough)
    exact ⟨_,_,_,execTo_end (by simp [programBytes]),rowFor_first before (by simp),follows.row⟩
  | cons i later ih =>
    obtain ⟨rounds,rfl⟩ := Nat.exists_eq_add_one_of_ne_zero (Nat.ne_of_gt (Nat.zero_lt_of_lt enough))
    simp only [table,Option.bind_eq_bind,Option.bind_eq_some_iff,Option.pure_def,Option.some.injEq] at valid
    obtain ⟨next,first,others,valid,rfl⟩ := valid
    have member := executed_first (setting s w.factors) ip w.rules.location i later
    obtain ⟨run,follows',same⟩ := exec_step text addr (readable i member) (fits i member) small follows first placed
    obtain ⟨sameSetting,sameInitial⟩ := context_setting same
    have location := applied_forward s pos i (show w.rules.location < 2 ^ 64 by omega)
    rw [Nat.mod_eq_of_lt (reached_first plain)] at location
    have positive := bytes_filled s i
    rw [programBytes_cons,List.length_append]
    by_cases beyond : w.rules.location + scaledDelta (setting s w.factors) i > ip
    · -- the instruction goes forward, so that it leaves the rules as they are
      have forward : i.advance.isSome = true := by
        cases advance : i.advance with
        | some delta => rfl
        | none =>
          simp [scaledDelta,advance] at beyond
          omega
      have unchanged : next = m := by
        cases i <;> simp [FrameInstruction.advance] at forward <;> cases first <;> rfl
      refine ⟨location0,(applied s pos w i).goto s (pos + (i.bytes s.bigEndian).length),m.row,?_,?_,?_⟩
      · exact execTo_stop (by omega) run (by rw [location]; exact beyond)
      · rw [if_pos forward]
        refine rowFor_first before fun row member => ?_
        have later := table_later valid row member
        omega
      · rw [← unchanged]
        exact follows'.row
    · have more : executed (setting s w.factors) ip w.rules.location (i :: later) =
          i :: executed (setting s w.factors) ip (w.rules.location + scaledDelta (setting s w.factors) i) later := by
        rw [executed,if_neg beyond]
      rw [execTo_next (by omega) run (by rw [location]; exact beyond),← Nat.add_assoc]
      simp only [more,List.forall_mem_cons] at readable fits
      unfold reached at plain
      rw [more,List.map_cons,List.sum_cons,← Nat.add_assoc] at plain
      rw [← location,← sameSetting] at readable fits plain
      rw [← location,← sameSetting,← sameInitial] at valid
      obtain ⟨last,w',row,rest,found,shown⟩ := ih (w := applied s pos w i) (by rw [location]; omega) readable.2 fits.2 plain follows' valid
        placed.split.2 (by simpa using enough)
      refine ⟨last,w',row,rest,?_,shown⟩
      split
      · exact rowFor_later _ found
      · exact found

/-- What a run comes to the end of can be read. -/
theorem execTo_readable {addr range ip location0 last : Nat} {w' : World} {rows : List (Nat × Row)} (small : s.data.length < 2 ^ 64)
    (below : ip < 2 ^ 64) (before : w.rules.location ≤ ip) (fits : ∀ i ∈ executed (setting s w.factors) ip w.rules.location program, i.Fits)
    (plain : reached (setting s w.factors) ip w.rules.location program < 2 ^ 64) (follows : Follows s w m)
    (valid : table (setting s w.factors) (w.initial s) w.rules.location m program = some rows) (placed : Placed s pos program)
    (run : execTo s text addr range ip (pos + (programBytes s program).length) rounds location0 (w.goto s pos) = .ok last w') :
    ∀ i ∈ executed (setting s w.factors) ip w.rules.location program, i.Readable := by
  induction program generalizing w m pos rounds location0 rows with
  | nil => simp [executed]
  | cons i later ih =>
    have positive := bytes_filled s i
    cases rounds with
    | zero => cases run
    | succ rounds =>
      simp only [table,Option.bind_eq_bind,Option.bind_eq_some_iff,Option.pure_def,Option.some.injEq] at valid
      obtain ⟨next,first,others,valid,-⟩ := valid
      rw [programBytes_cons,List.length_append] at run
      have fit := fits i (executed_first ..)
      by_cases readable : i.Readable
      · obtain ⟨step,follows',same⟩ := exec_step text addr readable fit small follows first placed
        obtain ⟨sameSetting,sameInitial⟩ := context_setting same
        have location := applied_forward s pos i (show w.rules.location < 2 ^ 64 by omega)
        rw [Nat.mod_eq_of_lt (reached_first plain)] at location
        by_cases beyond : w.rules.location + scaledDelta (setting s w.factors) i > ip
        · rw [executed,if_pos beyond]
          simpa using readable
        · rw [execTo_next (by omega) step (by rw [location]; exact beyond),← Nat.add_assoc] at run
          unfold reached at plain
          rw [executed,if_neg beyond] at fits plain ⊢
          rw [List.map_cons,List.sum_cons,← Nat.add_assoc] at plain
          simp only [List.forall_mem_cons] at fits ⊢
          rw [← location,← sameSetting] at fits plain ⊢
          rw [← location,← sameSetting,← sameInitial] at valid
          exact ⟨readable,ih (w := applied s pos w i) (by rw [location]; omega) fits.2 plain follows' valid placed.split.2 run⟩
      · obtain ⟨⟨rest,here⟩,-⟩ := placed.split
        obtain ⟨w1,fails⟩ := exec_unread text addr w readable fit here
        rw [execTo_round (by omega),bind_error fails] at run
        cases run

end Steps

section Entries

variable {s : FrameSection} {w w' : World}

/-- An FDE with its CIE, and an address in its range. `initial` and `rows` are the rules of the CIE and the table of the FDE. -/
structure Entry (s : FrameSection) where
  factors : Factors
  cie : List FrameInstruction
  fde : List FrameInstruction
  ciePos : Nat
  fdePos : Nat
  addr : Nat
  range : Nat
  ip : Nat
  initial : Row
  rows : List (Nat × Row)
  small : s.data.length < 2 ^ 64
  cieAt : Placed s ciePos cie
  fdeAt : Placed s fdePos fde
  inside : addr ≤ ip ∧ ip < addr + range
  address : ip < 2 ^ 64
  cieValid : initialRow (setting s factors) cie = some initial
  fdeValid : table (setting s factors) initial.rule addr ⟨initial,[]⟩ fde = some rows

namespace Entry

def cieEnd (e : Entry s) : Nat := e.ciePos + (programBytes s e.cie).length

def fdeEnd (e : Entry s) : Nat := e.fdePos + (programBytes s e.fde).length

/-- The instructions of the CIE, and those of the FDE up to the first that goes beyond the address. -/
def run (e : Entry s) : List FrameInstruction := e.cie ++ executed (setting s e.factors) e.ip e.addr e.fde

/-- The CIE has been run, and maybe FDEs of all kinds after it. -/
inductive Loaded (e : Entry s) : World → Prop where
  | cie {fuel : Nat} {text : Option Nat} {w w' : World} (factors : w.factors = e.factors)
    (run : execCie s fuel text e.cieEnd (w.goto s e.ciePos) = .ok () w') : Loaded e w'
  | elsewhere {w : World} (w' : World) (before : Loaded e w) (factors : w'.factors = w.factors) (cieRegs : w'.cieRegs = w.cieRegs) : Loaded e w'
  | fde {w : World} (before : Loaded e w) (fuel : Nat) (text : Option Nat) (addr range ip fdeEnd : Nat) :
    Loaded e (leftWorld (execFde s fuel text addr range ip fdeEnd w))

/-- The CIE is run to its end, and then the FDE comes to the rules of the last row up to the address. -/
def Evaluated (e : Entry s) : Prop := ∀ fuel, e.cie.length < fuel → e.fde.length < fuel → ∀ text,
  (∀ w : World, w.factors = e.factors → ∃ w', execCie s fuel text e.cieEnd (w.goto s e.ciePos) = .ok () w') ∧
  ∀ w, Loaded e w → ∃ last w' row, execFde s fuel text e.addr e.range e.ip e.fdeEnd (w.goto s e.fdePos) = .ok last w' ∧
    rowFor e.ip e.rows = some row ∧ shownRow s w'.rules.returnAddressRegister w'.frameRegs = row

/-- All operands that are read can be read. -/
def Readable (e : Entry s) : Prop := ∀ i ∈ e.run, i.Readable

/-- Registers, blocks and locations are in the limits of a 64-bit file. -/
structure Fits (e : Entry s) : Prop where
  instructions : ∀ i ∈ e.run, i.Fits
  locations : reached (setting s e.factors) e.ip e.addr e.fde < 2 ^ 64

end Entry

/-- What `execCie` begins with -/
def World.cleared (w : World) : World := { w with cieRegs := noRegisters, frameRegs := noRegisters, regsStack := [] }

theorem cleared_initial (w : World) : w.cleared.initial s = (setting s w.factors).implied := rfl

theorem cleared_follows (w : World) : Follows s w.cleared ⟨⟨.none,(setting s w.factors).implied⟩,[]⟩ := ⟨rfl,rfl⟩

/-- What `execCie` leaves -/
def World.saved (s : FrameSection) (w : World) : World :=
  { w with cieRegs := copyRegisterRules s.machine w.rules.returnAddressRegister w.frameRegs }

theorem execCie_eq (fuel : Nat) (text : Option Nat) (stop pos : Nat) : execCie s fuel text stop (w.goto s pos) =
    (execUntil s text stop fuel >>= fun _ => modify (World.saved s)) (w.cleared.goto s pos) := rfl

/-- The rules of the CIE are there. -/
structure Initialized (e : Entry s) (w : World) : Prop where
  factors : w.factors = e.factors
  row : shownRow s w.rules.returnAddressRegister w.cieRegs = e.initial

variable {e : Entry s} {fuel : Nat} {text : Option Nat}

/-- The rules behind the instructions of the CIE -/
theorem Entry.cie_steps (e : Entry s) (factors : w.factors = e.factors) : ∃ m, m.row = e.initial ∧
    e.cie.foldlM (step (setting s w.cleared.factors) (w.cleared.initial s)) ⟨⟨.none,(setting s w.factors).implied⟩,[]⟩ = some m := by
  have valid := e.cieValid
  rw [initialRow,Option.map_eq_some_iff,← factors] at valid
  obtain ⟨m,valid,row⟩ := valid
  exact ⟨m,row,by rw [cleared_initial]; exact valid⟩

theorem execCie_bytes (readable : ∀ i ∈ e.cie, i.Readable) (fits : ∀ i ∈ e.cie, i.Fits) (enough : e.cie.length < fuel)
    (factors : w.factors = e.factors) : ∃ w', execCie s fuel text e.cieEnd (w.goto s e.ciePos) = .ok () w' := by
  obtain ⟨m,row,valid⟩ := e.cie_steps factors
  obtain ⟨w',run,-⟩ := execUntil_bytes text readable fits e.small (cleared_follows w) valid e.cieAt enough
  exact ⟨(w'.goto s e.cieEnd).saved s,by rw [execCie_eq]; exact bind_ok run⟩

theorem execCie_ok (fits : ∀ i ∈ e.cie, i.Fits) (factors : w.factors = e.factors)
    (run : execCie s fuel text e.cieEnd (w.goto s e.ciePos) = .ok () w') : (∀ i ∈ e.cie, i.Readable) ∧ Initialized e w' := by
  obtain ⟨m,row,valid⟩ := e.cie_steps factors
  rw [execCie_eq] at run
  obtain ⟨_,w1,first,last⟩ := bind_inv run
  obtain ⟨readable,follows,same⟩ := execUntil_ok fits e.small (cleared_follows w) valid e.cieAt first
  cases last
  have kept := congrArg Prod.fst same
  exact ⟨readable,kept.trans factors,(copy_shown _ _).trans (follows.row.trans row)⟩

/-- The rules of the CIE are there until another one is read. -/
theorem Entry.Loaded.initialized (loaded : e.Loaded w) (fits : ∀ i ∈ e.cie, i.Fits) : Initialized e w := by
  induction loaded with
  | cie factors run => exact (execCie_ok fits factors run).2
  | elsewhere w' _ factors cieRegs ih =>
    refine ⟨factors.trans ih.factors,?_⟩
    rw [cieRegs,← ih.row,show w'.rules.returnAddressRegister = _ from congrArg Factors.returnAddressRegister factors]
    rfl
  | @fde w _ fuel text addr range ip fdeEnd ih =>
    have kept : Keeps (World.context s) (execFde s fuel text addr range ip fdeEnd) := execFde_keeps s fuel text addr range ip fdeEnd
    have same := kept w
    simp only [World.context,Prod.mk.injEq] at same
    refine ⟨same.1.trans ih.factors,?_⟩
    rw [← ih.row,shownRow,shownRow,same.2.1]
    congr 1
    funext n
    exact congrArg (shownRule s) (congrFun same.2.2 n)

/-- What `execFde` begins with -/
def World.started (s : FrameSection) (addr : Nat) (w : World) : World := { w with
  frameRegs := copyRegisterRules s.machine w.rules.returnAddressRegister w.cieRegs
  rules.location := addr
  regsStack := [] }

theorem execFde_eq (addr range ip stop pos : Nat) : execFde s fuel text addr range ip stop (w.goto s pos) =
    execTo s text addr range ip stop fuel addr ((w.started s addr).goto s pos) := rfl

namespace Initialized

variable (ready : Initialized e w)

include ready

theorem setting : setting s (w.started s e.addr).factors = Tcf.Frames.setting s e.factors := by
  rw [← ready.factors]
  rfl

theorem follows : Follows s (w.started s e.addr) ⟨e.initial,[]⟩ := ⟨(copy_shown _ _).trans ready.row,rfl⟩

theorem table : Tcf.Frames.table (Tcf.Frames.setting s (w.started s e.addr).factors) ((w.started s e.addr).initial s) (w.started s e.addr).rules.location
    ⟨e.initial,[]⟩ e.fde = some e.rows := by
  have rules : (w.started s e.addr).initial s = e.initial.rule := by
    rw [← ready.row]
    rfl
  rw [ready.setting,rules]
  exact e.fdeValid

theorem executed : Tcf.Frames.executed (Tcf.Frames.setting s (w.started s e.addr).factors) e.ip (w.started s e.addr).rules.location e.fde =
    Tcf.Frames.executed (Tcf.Frames.setting s e.factors) e.ip e.addr e.fde := by
  rw [ready.setting]
  rfl

theorem reached : Tcf.Frames.reached (Tcf.Frames.setting s (w.started s e.addr).factors) e.ip (w.started s e.addr).rules.location e.fde =
    Tcf.Frames.reached (Tcf.Frames.setting s e.factors) e.ip e.addr e.fde := by
  rw [ready.setting]
  rfl

end Initialized

theorem Entry.Fits.cie (fits : e.Fits) : ∀ i ∈ e.cie, i.Fits := fun i member => fits.instructions i (List.mem_append_left _ member)

theorem Entry.Fits.fde (fits : e.Fits) : ∀ i ∈ executed (setting s e.factors) e.ip e.addr e.fde, i.Fits :=
  fun i member => fits.instructions i (List.mem_append_right _ member)

theorem Entry.Readable.evaluated (readable : e.Readable) (fits : e.Fits) : e.Evaluated := by
  intro fuel enoughCie enoughFde text
  have cie : ∀ i ∈ e.cie, i.Readable := fun i member => readable i (List.mem_append_left _ member)
  refine ⟨fun w factors => execCie_bytes cie fits.cie enoughCie factors,fun w loaded => ?_⟩
  have ready := loaded.initialized fits.cie
  rw [execFde_eq]
  refine execTo_bytes e.small e.address e.inside.1 ?_ ?_ ?_ ready.follows ready.table e.fdeAt enoughFde
  · rw [ready.executed]
    exact fun i member => readable i (List.mem_append_right _ member)
  · rw [ready.executed]
    exact fits.fde
  · rw [ready.reached]
    exact fits.locations

/-- A world with the factors of a CIE -/
def factorsWorld (factors : Factors) : World := ⟨⟨0,[]⟩,{ startRules with
  codeAlignment := factors.codeAlignment
  dataAlignment := factors.dataAlignment
  returnAddressRegister := factors.returnAddressRegister },noRegisters,noRegisters,[],⟨none,false⟩⟩

theorem Entry.Evaluated.readable (evaluated : e.Evaluated) (fits : e.Fits) : e.Readable := by
  obtain ⟨cie,fde⟩ := evaluated (e.cie.length + e.fde.length + 1) (by omega) (by omega) none
  obtain ⟨w,run⟩ := cie (factorsWorld e.factors) rfl
  have loaded : e.Loaded w := .cie rfl run
  have ready := loaded.initialized fits.cie
  obtain ⟨last,w',row,run',-⟩ := fde w loaded
  rw [execFde_eq] at run'
  have executed := execTo_readable (w := w.started s e.addr) e.small e.address e.inside.1 (by rw [ready.executed]; exact fits.fde)
    (by rw [ready.reached]; exact fits.locations) ready.follows ready.table e.fdeAt run'
  rw [ready.executed] at executed
  intro i member
  rcases List.mem_append.mp member with first | later
  · exact (execCie_ok fits.cie rfl run).1 i first
  · exact executed i later

/-- Within the limits, frame info is evaluated as the standard says exactly when all operands that are read can be read. -/
theorem frame_rules_iff (e : Entry s) : e.Evaluated ∧ e.Fits ↔ e.Readable ∧ e.Fits := by
  constructor
  · rintro ⟨evaluated,fits⟩
    exact ⟨evaluated.readable fits,fits⟩
  · rintro ⟨readable,fits⟩
    exact ⟨readable.evaluated fits,fits⟩

/-- 16 in six bytes -/
def paddedLeb : Leb := ⟨⟨16,by decide⟩ :: List.replicate 4 ⟨0,by decide⟩,⟨0,by decide⟩⟩

def plainCie : List FrameInstruction := [.defCfa ⟨[],⟨7,by decide⟩⟩ ⟨[],⟨8,by decide⟩⟩]

def paddedFde : List FrameInstruction := [.defCfaOffset paddedLeb]

def paddedSection : FrameSection where
  data := (plainCie ++ paddedFde).flatMap (FrameInstruction.bytes false)
  addr := 0
  alignment := 1
  ehFrame := false
  elf64 := true
  bigEndian := false
  machine := .x8664
  sections := []
  relocate := fun _ _ value => some (value,none)

def paddedFactors : Factors := ⟨1,-8,16⟩

def paddedEntry : Entry paddedSection where
  factors := paddedFactors
  cie := plainCie
  fde := paddedFde
  ciePos := 0
  fdePos := 3
  addr := 0x1000
  range := 0x10
  ip := 0x1004
  initial := ⟨.registerOffset 7 8,(setting paddedSection paddedFactors).implied⟩
  rows := [(0x1000,⟨.registerOffset 7 16,(setting paddedSection paddedFactors).implied⟩)]
  small := by decide
  cieAt := ⟨programBytes paddedSection paddedFde,by decide⟩
  fdeAt := ⟨[],by decide⟩
  inside := by decide
  address := by decide
  cieValid := rfl
  fdeValid := rfl

/-- An operand that has more bytes than it needs keeps the code from finding the rules. -/
theorem padded_operand : ¬paddedEntry.Evaluated := by
  intro evaluated
  have fits : paddedEntry.Fits := by
    refine ⟨?_,by decide⟩
    simp [Entry.run,paddedEntry,plainCie,paddedFde,executed,scaledDelta,FrameInstruction.advance,FrameInstruction.Fits,Leb.unsigned,
      groupsValue] <;> decide
  have readable := evaluated.readable fits (.defCfaOffset paddedLeb) (by decide)
  exact absurd readable (by simp [FrameInstruction.Readable,Short,paddedLeb])

end Entries

end Tcf.Frames
