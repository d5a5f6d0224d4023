import Mathlib.Algebra.Order.Ring.Int

/-! Calls of functions of the target: the commands that set one up, and what they leave for the function -/
namespace Tcf.FuncCall

inductive TypeClass where
  | unknown | cardinal | integer | real | pointer | memberPointer | array | composite | enumeration | function
  deriving DecidableEq, Repr

/-- The machines, EM_386 and EM_X86_64 -/
inductive Machine where
  | i386
  | x86_64
  deriving DecidableEq, Repr

/-- The size of a register, of the PC and of a place on the stack -/
def Machine.word : Machine → Nat
  | .i386 => 4
  | .x86_64 => 8

/-- Registers by their DWARF numbers, and the PC -/
inductive Register where
  | number (id : Nat)
  | pc
  deriving DecidableEq, Repr

def Machine.sp : Machine → Register
  | .i386 => .number 4
  | .x86_64 => .number 7

/-- `get_return_value_register_id` -/
def regRv : Register := .number 0

/-- `LocationExpressionCommand` -/
inductive Command where
  | number (num : Nat)
  | rdReg (reg : Register)
  | wrReg (reg : Register)
  | sub
  | arg (argNo : Nat)
  | wrMem (size : Nat)
  | fcall
  deriving DecidableEq, Repr

/-- An argument: the type classes, and the size of the formal one -/
structure Arg where
  classActual : TypeClass
  classFormal : TypeClass
  sizeFormal : Nat
  deriving DecidableEq, Repr

/-- The type classes that are passed -/
def TypeClass.passed : TypeClass → Bool
  | .cardinal | .integer | .pointer | .enumeration | .array => true
  | _ => false

def Arg.passed (a : Arg) : Bool := a.classActual.passed && a.classFormal.passed

def funccallArgArgs : Nat := 2

def regArgIds : List Nat := [5,4,1,2,8,9]

section Commands

/-- The registers that arguments are assigned to -/
def Machine.argRegs : Machine → List Nat
  | .i386 => []
  | .x86_64 => regArgIds

/-- The loop that assigns arguments to registers, from argument `i` on: its commands, and the arguments that are left -/
def assign : Nat → List Nat → List Arg → List Command × List (Nat × Arg)
  | _, _, [] => ([],[])
  | i, regs, a :: args =>
    match a.passed, regs with
    | true, reg :: regs =>
      let (cmds,left) := assign (i + 1) regs args
      (.arg (funccallArgArgs + i) :: .wrReg (.number reg) :: cmds,left)
    | _, regs =>
      let (cmds,left) := assign (i + 1) regs args
      (cmds,(i,a) :: left)

/-- An `unsigned` offset after an argument of some size: the loop adds one until it is a multiple of a word. -/
def pushed (word offs size : Nat) : Nat :=
  let offs := (offs + size) % 2 ^ 32
  (offs + (word - offs % word) % word) % 2 ^ 32

/-- A turn of the loop that pushes arguments -/
def push (m : Machine) (acc : Nat × List Command) (x : Nat × Arg) : Except String (Nat × List Command) :=
  if x.2.passed then
    let spOffs := pushed m.word acc.1 x.2.sizeFormal
    .ok (spOffs,acc.2 ++ [.rdReg m.sp,.number spOffs,.sub,.arg (funccallArgArgs + x.1),.wrMem x.2.sizeFormal])
  else .error "Unsupported argument type"

/-- `c_call_cmds`. `ret` is the type class of what is returned, if its size is not 0. -/
def cCallCmds (m : Machine) (args : List Arg) (ret : Option TypeClass) : Except String (List Command) := do
  let (cmds,left) := assign 0 m.argRegs args
  let (spOffs,cmds) ← left.reverse.foldlM (push m) (0,cmds)
  let spOffs := (spOffs + m.word) % 2 ^ 32
  let cmds := cmds ++ [.rdReg m.sp,.number spOffs,.sub,.rdReg .pc,.wrMem m.word]
  let cmds := cmds ++ [.rdReg m.sp,.number spOffs,.sub,.wrReg m.sp,.fcall]
  match ret with
  | none => return cmds
  | some cls => if cls.passed then return cmds ++ [.rdReg regRv] else .error "Unsupported return type"

end Commands

section Evaluation

structure State where
  regs : Register → Nat
  mem : Nat → UInt8

inductive Stop where
  /-- The exception "Invalid location expression" -/
  | invalid
  /-- The assertion on the size of a buffer -/
  | assertion
  deriving DecidableEq, Repr

/-- The bytes of a number at an address, the lowest one first -/
def writeMem (mem : Nat → UInt8) (addr size value : Nat) (a : Nat) : UInt8 :=
  if addr ≤ a ∧ a < addr + size then UInt8.ofNat (value / 256 ^ (a - addr)) else mem a

def State.writeReg (s : State) (reg : Register) (value : Nat) : State :=
  { s with regs := fun r => if r = reg then value else s.regs r }

/-- A turn of `evaluate_location_expression`; the top of the stack is the head of the list. -/
def step (m : Machine) (args : List Nat) (s : State) (stk : List Nat) : Command → Except Stop (State × List Nat)
  | .number num => .ok (s,num :: stk)
  | .rdReg reg => .ok (s,s.regs reg :: stk)
  | .wrReg reg =>
    match stk with
    | v :: stk => .ok (s.writeReg reg (v % 256 ^ m.word),stk)
    | _ => .error .invalid
  | .sub =>
    match stk with
    | b :: a :: stk => .ok (s,(a + 2 ^ 64 - b) % 2 ^ 64 :: stk)
    | _ => .error .invalid
  | .arg argNo =>
    match args[argNo]? with
    | some v => .ok (s,v :: stk)
    | none => .error .invalid
  | .wrMem size =>
    match stk with
    | v :: a :: stk => if size ≤ 8 then .ok ({ s with mem := writeMem s.mem a size v },stk) else .error .assertion
    | _ => .error .invalid
  | .fcall => .ok (s,stk)

/-- `evaluate_location_expression` up to the call -/
def evaluate (m : Machine) (args : List Nat) : State → List Nat → List Command → Except Stop State
  | s, _, [] => .ok s
  | s, _, .fcall :: _ => .ok s
  | s, stk, cmd :: cmds =>
    match step m args s stk cmd with
    | .ok (s,stk) => evaluate m args s stk cmds
    | .error stop => .error stop

end Evaluation

section Convention

/-- The bytes of a place for an argument -/
def slot (m : Machine) (a : Arg) : Nat := (a.sizeFormal + (m.word - 1)) / m.word * m.word

/-- The arguments, with their values, that are on the stack -/
def onStack (m : Machine) (args : List (Arg × Nat)) : List (Arg × Nat) := args.drop m.argRegs.length

/-- The bytes of the argument area -/
def area (m : Machine) : List (Arg × Nat) → Nat
  | [] => 0
  | x :: args => slot m x.1 + area m args

/-- The arguments are in their places from an address on. -/
def Placed (m : Machine) (mem : Nat → UInt8) : Nat → List (Arg × Nat) → Prop
  | _, [] => True
  | addr, x :: args => (∀ k < x.1.sizeFormal, mem (addr + k) = UInt8.ofNat (x.2 / 256 ^ k)) ∧ Placed m mem (addr + slot m x.1) args

/-- What the System V ABI says of a machine about the state `s'` at the entry of a function, for a call from the state `s`.
An argument of more than eight bytes takes more registers or a copy in memory, which are not there. The address behind the
return address is a multiple of 16. -/
structure Conforms (m : Machine) (args : List (Arg × Nat)) (s s' : State) : Prop where
  small : ∀ x ∈ args, x.1.sizeFormal ≤ 8
  registers : ∀ p ∈ m.argRegs.zip args, s'.regs (.number p.1) = p.2.2
  stack : Placed m s'.mem (s'.regs m.sp + m.word) (onStack m args)
  return_ : ∀ k < m.word, s'.mem (s'.regs m.sp + k) = UInt8.ofNat (s.regs .pc / 256 ^ k)
  below : s'.regs m.sp + m.word + area m (onStack m args) ≤ s.regs m.sp
  aligned : (s'.regs m.sp + m.word) % 16 = 0
  kept : ∀ a, s.regs m.sp ≤ a → s'.mem a = s.mem a

/-- `info->stack_alignment` -/
def Machine.stackAlignment : Machine → Nat
  | .i386 => 8
  | .x86_64 => 16

/-- A call, in a state of the target -/
structure Injected (m : Machine) where
  args : List (Arg × Nat)
  ret : Option TypeClass
  addr : Nat
  retAddr : Nat
  start : State
  passed : ∀ x ∈ args, x.1.passed = true
  returned : ∀ cls, ret = some cls → cls.passed = true
  wide : ∀ x ∈ args, x.2 < 2 ^ 64
  sp : start.regs m.sp < 256 ^ m.word
  aligned : start.regs m.sp % m.stackAlignment = 0

/-- The commands of the call leave what the function expects. -/
def Injected.Follows {m : Machine} (call : Injected m) : Prop :=
  ∃ cmds s', cCallCmds m (call.args.map Prod.fst) call.ret = .ok cmds ∧
    evaluate m (call.addr :: call.retAddr :: call.args.map Prod.snd) call.start [] cmds = .ok s' ∧
    Conforms m call.args call.start s'

end Convention

section Commands

variable {m : Machine} {full : List Nat}

theorem evaluate_step {s s' : State} {stk stk' : List Nat} {cmd : Command} (more : List Command) (other : cmd ≠ .fcall)
    (done : step m full s stk cmd = .ok (s',stk')) : evaluate m full s stk (cmd :: more) = evaluate m full s' stk' more := by
  cases cmd with
  | fcall => exact absurd rfl other
  | number | rdReg | wrReg | sub | arg | wrMem => simp only [evaluate,done]

/-- The state with the arguments in registers -/
def assigned (m : Machine) : State → List (Nat × Arg × Nat) → State
  | s, [] => s
  | s, p :: l => assigned m (s.writeReg (.number p.1) (p.2.2 % 256 ^ m.word)) l

theorem assigned_mem (s : State) (l : List (Nat × Arg × Nat)) : (assigned m s l).mem = s.mem := by
  induction l generalizing s with
  | nil => rfl
  | cons p l ih => exact ih _

theorem assigned_other {reg : Register} (s : State) (l : List (Nat × Arg × Nat)) (other : ∀ p ∈ l, reg ≠ .number p.1) :
    (assigned m s l).regs reg = s.regs reg := by
  induction l generalizing s with
  | nil => rfl
  | cons p l ih =>
    have first := other p List.mem_cons_self
    rw [assigned,ih _ fun q member => other q (List.mem_cons_of_mem _ member)]
    exact if_neg first

theorem assigned_reg {s : State} {l : List (Nat × Arg × Nat)} (nodup : (l.map Prod.fst).Nodup) :
    ∀ p ∈ l, (assigned m s l).regs (.number p.1) = p.2.2 % 256 ^ m.word := by
  induction l generalizing s with
  | nil => nofun
  | cons p l ih =>
    have ⟨fresh,rest⟩ := List.nodup_cons.mp nodup
    refine List.forall_mem_cons.mpr ⟨?_,fun q member => ih rest q member⟩
    rw [assigned,assigned_other]
    · exact if_pos rfl
    · intro q member same
      have equal : p.1 = q.1 := Register.number.inj same
      exact fresh (equal ▸ List.mem_map_of_mem member)

/-- Each register takes the next argument; the others are left, with their numbers. -/
theorem assign_left {args : List (Arg × Nat)} (passed : ∀ x ∈ args, x.1.passed = true) (i : Nat) (regs : List Nat) :
    (assign i regs (args.map Prod.fst)).2 =
      ((args.drop regs.length).zipIdx (i + regs.length)).map fun y => (y.2,y.1.1) := by
  induction args generalizing i regs with
  | nil =>
    rw [List.drop_nil]
    rfl
  | cons x args ih =>
    have here := passed x List.mem_cons_self
    have later := fun y member => passed y (List.mem_cons_of_mem x member)
    cases regs with
    | nil =>
      simp only [List.map_cons,assign,here,ih later]
      rfl
    | cons reg regs =>
      simp only [List.map_cons,assign,here,ih later]
      rw [List.length_cons,List.drop_succ_cons,Nat.add_right_comm,Nat.add_assoc]

theorem assign_run {args : List (Arg × Nat)} (passed : ∀ x ∈ args, x.1.passed = true) (i : Nat) (regs : List Nat) (s : State)
    (carried : ∀ j x, args[j]? = some x → full[funccallArgArgs + i + j]? = some x.2) (more : List Command) :
    evaluate m full s [] ((assign i regs (args.map Prod.fst)).1 ++ more) =
      evaluate m full (assigned m s (regs.zip args)) [] more := by
  induction args generalizing i regs s with
  | nil => rw [List.zip_nil_right]; rfl
  | cons x args ih =>
    have here := passed x List.mem_cons_self
    have later := fun y member => passed y (List.mem_cons_of_mem x member)
    have carried' : ∀ j y, args[j]? = some y → full[funccallArgArgs + (i + 1) + j]? = some y.2 := by
      intro j y there
      have next := carried (j + 1) y there
      rwa [show funccallArgArgs + i + (j + 1) = funccallArgArgs + (i + 1) + j by omega] at next
    cases regs with
    | nil =>
      simp only [List.map_cons,assign,here]
      exact ih later (i + 1) [] s carried'
    | cons reg regs =>
      simp only [List.map_cons,assign,here,List.cons_append]
      have first : full[funccallArgArgs + i]? = some x.2 := carried 0 x rfl
      have value : step m full s [] (.arg (funccallArgArgs + i)) = .ok (s,[x.2]) := by
        simp only [step,first]
      rw [evaluate_step _ (by nofun) value,evaluate_step _ (by nofun) rfl]
      exact ih later (i + 1) regs _ carried'

/-- The memory with the arguments pushed below `sp`, the last one first -/
def pushedMem (m : Machine) (sp : Nat) (mem : Nat → UInt8) : List (Arg × Nat) → Nat → UInt8
  | [] => mem
  | x :: args => writeMem (pushedMem m sp mem args) ((sp + 2 ^ 64 - area m (x :: args) % 2 ^ 32) % 2 ^ 64) x.1.sizeFormal x.2

theorem slot_word (m : Machine) (a : Arg) : m.word ∣ slot m a := Nat.dvd_mul_left ..

theorem area_word (m : Machine) (args : List (Arg × Nat)) : m.word ∣ area m args := by
  induction args with
  | nil => exact Nat.dvd_zero _
  | cons x args ih => exact Nat.dvd_add (slot_word m x.1) ih

theorem pushed_eq (m : Machine) (a : Arg) {offs : Nat} (even : m.word ∣ offs) :
    pushed m.word (offs % 2 ^ 32) a.sizeFormal = (slot m a + offs) % 2 ^ 32 := by
  unfold pushed slot
  cases m with
  | i386 =>
    change 4 ∣ offs at even
    change ((offs % 2 ^ 32 + a.sizeFormal) % 2 ^ 32 + (4 - (offs % 2 ^ 32 + a.sizeFormal) % 2 ^ 32 % 4) % 4) % 2 ^ 32 =
      ((a.sizeFormal + 3) / 4 * 4 + offs) % 2 ^ 32
    omega
  | x86_64 =>
    change 8 ∣ offs at even
    change ((offs % 2 ^ 32 + a.sizeFormal) % 2 ^ 32 + (8 - (offs % 2 ^ 32 + a.sizeFormal) % 2 ^ 32 % 8) % 8) % 2 ^ 32 =
      ((a.sizeFormal + 7) / 8 * 8 + offs) % 2 ^ 32
    omega

theorem stack_write {s : State} {reg : Register} {offs size v : Nat} (source : Command) (more : List Command) (small : size ≤ 8)
    (other : source ≠ .fcall) (value : ∀ stk, step m full s stk source = .ok (s,v :: stk)) :
    evaluate m full s [] (.rdReg reg :: .number offs :: .sub :: source :: .wrMem size :: more) =
      evaluate m full { s with mem := writeMem s.mem ((s.regs reg + 2 ^ 64 - offs) % 2 ^ 64) size v } [] more := by
  rw [evaluate_step _ (by nofun) rfl,evaluate_step _ (by nofun) rfl,evaluate_step _ (by nofun) rfl,evaluate_step _ other (value _)]
  exact evaluate_step _ (by nofun) (if_pos small)

/-- The arguments that are left, each with its number -/
def numbered (items : List ((Arg × Nat) × Nat)) : List (Nat × Arg) := items.map fun y => (y.2,y.1.1)

theorem push_run {items : List ((Arg × Nat) × Nat)} (passed : ∀ y ∈ items, y.1.1.passed = true)
    (small : ∀ y ∈ items, y.1.1.sizeFormal ≤ 8) (carried : ∀ y ∈ items, full[funccallArgArgs + y.2]? = some y.1.2) (front : List Command) :
    ∃ cmds, (numbered items).reverse.foldlM (push m) (0,front) = .ok (area m (items.map Prod.fst) % 2 ^ 32,front ++ cmds) ∧
      ∀ s more, evaluate m full s [] (cmds ++ more) =
        evaluate m full { s with mem := pushedMem m (s.regs m.sp) s.mem (items.map Prod.fst) } [] more := by
  induction items with
  | nil => exact ⟨[],by rw [List.append_nil]; rfl,fun _ _ => rfl⟩
  | cons y items ih =>
    have ⟨here,later⟩ := List.forall_mem_cons.mp passed
    have ⟨low,lower⟩ := List.forall_mem_cons.mp small
    have ⟨there,others⟩ := List.forall_mem_cons.mp carried
    obtain ⟨cmds,built,runs⟩ := ih later lower others
    have offs : pushed m.word (area m (items.map Prod.fst) % 2 ^ 32) y.1.1.sizeFormal = area m ((y :: items).map Prod.fst) % 2 ^ 32 :=
      pushed_eq m y.1.1 (area_word m _)
    refine ⟨cmds ++ [.rdReg m.sp,.number (area m ((y :: items).map Prod.fst) % 2 ^ 32),.sub,.arg (funccallArgArgs + y.2),
      .wrMem y.1.1.sizeFormal],?_,fun s more => ?_⟩
    · have turn : push m (area m (items.map Prod.fst) % 2 ^ 32,front ++ cmds) (y.2,y.1.1) =
          .ok (area m ((y :: items).map Prod.fst) % 2 ^ 32,front ++ (cmds ++ [.rdReg m.sp,
            .number (area m ((y :: items).map Prod.fst) % 2 ^ 32),.sub,.arg (funccallArgArgs + y.2),.wrMem y.1.1.sizeFormal])) := by
        unfold push
        rw [if_pos here]
        simp only [offs,List.append_assoc]
      rw [numbered,List.map_cons,List.reverse_cons,List.foldlM_append]
      rw [numbered] at built
      rw [built]
      simp only [List.foldlM_cons,List.foldlM_nil,bind,Except.bind,turn]
      rfl
    · rw [List.append_assoc,runs]
      refine (stack_write (.arg (funccallArgArgs + y.2)) more low (by nofun) fun stk => ?_).trans rfl
      simp only [step,there]

/-- What the call leaves -/
def entered (m : Machine) (args : List (Arg × Nat)) (s : State) : State :=
  let s' := assigned m s (m.argRegs.zip args)
  let spOffs := (area m (onStack m args) % 2 ^ 32 + m.word) % 2 ^ 32
  let addr := (s.regs m.sp + 2 ^ 64 - spOffs) % 2 ^ 64
  let s' := { s' with mem := writeMem (pushedMem m (s.regs m.sp) s.mem (onStack m args)) addr m.word (s.regs .pc) }
  s'.writeReg m.sp (addr % 256 ^ m.word)

theorem word_small (m : Machine) : m.word ≤ 8 := by cases m <;> decide

theorem sp_other (m : Machine) (args : List (Arg × Nat)) : ∀ p ∈ m.argRegs.zip args, m.sp ≠ .number p.1 := by
  intro p member
  have listed : p.1 ∈ m.argRegs := (List.of_mem_zip member).1
  intro same
  cases m with
  | i386 => cases listed
  | x86_64 =>
    have seven : 7 = p.1 := Register.number.inj same
    rw [← seven] at listed
    exact absurd listed (by decide)

/-- The commands, for the arguments that are pushed -/
theorem call_commands {args : List Arg} {ret : Option TypeClass} {spOffs : Nat} {cmds : List Command}
    (returned : ∀ cls, ret = some cls → cls.passed = true)
    (built : (assign 0 m.argRegs args).2.reverse.foldlM (push m) (0,(assign 0 m.argRegs args).1) = .ok (spOffs,cmds)) :
    ∃ after, cCallCmds m args ret = .ok (cmds ++ .rdReg m.sp :: .number ((spOffs + m.word) % 2 ^ 32) :: .sub :: .rdReg .pc :: .wrMem m.word ::
      .rdReg m.sp :: .number ((spOffs + m.word) % 2 ^ 32) :: .sub :: .wrReg m.sp :: .fcall :: after) := by
  unfold cCallCmds
  simp only [built,bind,Except.bind,List.append_assoc,List.cons_append,List.nil_append]
  cases ret with
  | none => exact ⟨[],rfl⟩
  | some cls =>
    refine ⟨[.rdReg regRv],?_⟩
    simp only [returned cls rfl,if_pos]
    rfl

/-- The commands are built, and run to the call. -/
theorem Injected.run (call : Injected m) (small : ∀ x ∈ call.args, x.1.sizeFormal ≤ 8) :
    ∃ cmds, cCallCmds m (call.args.map Prod.fst) call.ret = .ok cmds ∧
      evaluate m (call.addr :: call.retAddr :: call.args.map Prod.snd) call.start [] cmds = .ok (entered m call.args call.start) := by
  have carried : ∀ j x, call.args[j]? = some x →
      (call.addr :: call.retAddr :: call.args.map Prod.snd)[funccallArgArgs + 0 + j]? = some x.2 := by
    intro j x there
    rw [show funccallArgArgs + 0 + j = j + 1 + 1 by unfold funccallArgArgs; omega,List.getElem?_cons_succ,List.getElem?_cons_succ,
      List.getElem?_map,there]
    rfl
  have items : ∀ y ∈ (onStack m call.args).zipIdx m.argRegs.length, call.args[y.2]? = some y.1 := by
    intro y member
    have ⟨low,there⟩ := List.mk_mem_zipIdx_iff_le_and_getElem?_sub.mp member
    rwa [onStack,List.getElem?_drop,Nat.add_sub_cancel' low] at there
  have inside : ∀ y ∈ (onStack m call.args).zipIdx m.argRegs.length, y.1 ∈ call.args :=
    fun y member => List.mem_of_getElem? (items y member)
  have values : ∀ y ∈ (onStack m call.args).zipIdx m.argRegs.length,
      (call.addr :: call.retAddr :: call.args.map Prod.snd)[funccallArgArgs + y.2]? = some y.1.2 :=
    fun y member => carried y.2 y.1 (items y member)
  have same : ((onStack m call.args).zipIdx m.argRegs.length).map Prod.fst = onStack m call.args := List.zipIdx_map_fst ..
  have left : (assign 0 m.argRegs (call.args.map Prod.fst)).2 = numbered ((onStack m call.args).zipIdx m.argRegs.length) := by
    have all := assign_left call.passed 0 m.argRegs
    rwa [Nat.zero_add] at all
  have registers := assign_run (m := m) call.passed 0 m.argRegs call.start carried
  obtain ⟨cmds,built,runs⟩ := push_run (fun y member => call.passed _ (inside y member)) (fun y member => small _ (inside y member)) values
    (assign 0 m.argRegs (call.args.map Prod.fst)).1
  rw [same,← left] at built
  obtain ⟨after,commands⟩ := call_commands call.returned built
  refine ⟨_,commands,?_⟩
  rw [List.append_assoc,registers,runs,same,assigned_mem,stack_write (.rdReg .pc) _ (word_small m) (by nofun) fun _ => rfl,
    evaluate_step _ (by nofun) rfl,evaluate_step _ (by nofun) rfl,evaluate_step _ (by nofun) rfl,evaluate_step _ (by nofun) rfl]
  simp only [evaluate,entered,assigned_other _ _ (sp_other m call.args),
    assigned_other _ _ fun _ _ => show Register.pc ≠ .number _ by nofun]

end Commands

section Memory

variable {m : Machine} {mem mem' : Nat → UInt8}

theorem slot_size (m : Machine) (a : Arg) : a.sizeFormal ≤ slot m a := by
  unfold slot
  cases m with
  | i386 =>
    change a.sizeFormal ≤ (a.sizeFormal + 3) / 4 * 4
    omega
  | x86_64 =>
    change a.sizeFormal ≤ (a.sizeFormal + 7) / 8 * 8
    omega

theorem writeMem_outside {addr size v a : Nat} (outside : addr + size ≤ a) : writeMem mem addr size v a = mem a :=
  if_neg fun ⟨_,below⟩ => absurd below (Nat.not_lt.mpr outside)

theorem writeMem_inside {addr size v k : Nat} (inside : k < size) :
    writeMem mem addr size v (addr + k) = UInt8.ofNat (v / 256 ^ k) := by
  unfold writeMem
  rw [if_pos ⟨Nat.le_add_right ..,Nat.add_lt_add_left inside addr⟩,Nat.add_sub_cancel_left]

theorem Placed.congr {args : List (Arg × Nat)} {addr : Nat} (placed : Placed m mem addr args)
    (same : ∀ a, addr ≤ a → mem' a = mem a) : Placed m mem' addr args := by
  induction args generalizing addr with
  | nil => trivial
  | cons x args ih =>
    have ⟨here,later⟩ := placed
    exact ⟨fun k small => (same _ (Nat.le_add_right ..)).trans (here k small),
      ih later fun a above => same a (Nat.le_trans (Nat.le_add_right ..) above)⟩

/-- Pushed arguments are in their places, and nothing is written above them. -/
theorem pushed_placed (mem : Nat → UInt8) (args : List (Arg × Nat)) {sp : Nat} (low : sp < 2 ^ 64) (room : area m args ≤ sp) (small : area m args < 2 ^ 32) :
    Placed m (pushedMem m sp mem args) (sp - area m args) args ∧ ∀ a, sp ≤ a → pushedMem m sp mem args a = mem a := by
  induction args with
  | nil => exact ⟨trivial,fun _ _ => rfl⟩
  | cons x args ih =>
    have size := slot_size m x.1
    have more : area m (x :: args) = slot m x.1 + area m args := rfl
    have ⟨placed,kept⟩ := ih (by omega) (by omega)
    have addr : (sp + 2 ^ 64 - area m (x :: args) % 2 ^ 32) % 2 ^ 64 = sp - area m (x :: args) := by omega
    have behind : sp - area m (x :: args) + slot m x.1 = sp - area m args := by omega
    unfold pushedMem
    rw [addr]
    refine ⟨⟨fun k inside => writeMem_inside inside,?_⟩,fun a above => ?_⟩
    · rw [behind]
      exact placed.congr fun a above => writeMem_outside (by omega)
    · exact (writeMem_outside (by omega)).trans (kept a above)

end Memory

section Entry

variable {m : Machine} (call : Injected m)

/-- There is a place for the arguments and the return address. -/
def Injected.Room : Prop :=
  m.word + area m (onStack m call.args) ≤ call.start.regs m.sp ∧ m.word + area m (onStack m call.args) < 2 ^ 32

theorem entered_sp : (entered m call.args call.start).regs m.sp =
    (call.start.regs m.sp + 2 ^ 64 - (area m (onStack m call.args) % 2 ^ 32 + m.word) % 2 ^ 32) % 2 ^ 64 % 256 ^ m.word := if_pos rfl

variable {call}

theorem Injected.Room.addr (room : call.Room) :
    (call.start.regs m.sp + 2 ^ 64 - (area m (onStack m call.args) % 2 ^ 32 + m.word) % 2 ^ 32) % 2 ^ 64 =
      call.start.regs m.sp - (m.word + area m (onStack m call.args)) := by
  have low : call.start.regs m.sp < 2 ^ 64 := Nat.lt_of_lt_of_le call.sp (by cases m <;> decide)
  obtain ⟨inside,small⟩ := room
  omega

theorem Injected.Room.sp (room : call.Room) :
    (entered m call.args call.start).regs m.sp = call.start.regs m.sp - (m.word + area m (onStack m call.args)) := by
  rw [entered_sp,room.addr]
  exact Nat.mod_eq_of_lt (Nat.lt_of_le_of_lt (Nat.sub_le ..) call.sp)

/-- Where the stack pointer is as the ABI has it, there is room. -/
theorem room_of_below
    (below : (entered m call.args call.start).regs m.sp + m.word + area m (onStack m call.args) ≤ call.start.regs m.sp) : call.Room := by
  have low := call.sp
  rw [entered_sp] at below
  refine ⟨by omega,?_⟩
  cases m with
  | i386 =>
    change call.start.regs Machine.i386.sp < 2 ^ 32 at low
    change _ + 4 + _ ≤ _ at below
    change 4 + _ < _
    omega
  | x86_64 =>
    change call.start.regs Machine.x86_64.sp < 2 ^ 64 at low
    change (_ + _ - (_ + 8) % _) % _ % 2 ^ 64 + 8 + _ ≤ _ at below
    change 8 + _ < _
    omega

/-- Each argument has a register of its own. -/
theorem registers_nodup (m : Machine) (args : List (Arg × Nat)) : ((m.argRegs.zip args).map Prod.fst).Nodup := by
  have all : m.argRegs.Nodup := by cases m <;> decide
  rw [List.zip_eq_zip_take_min,List.map_fst_zip (by simp only [List.length_take]; omega)]
  exact all.sublist (List.take_sublist ..)

theorem entered_registers : ∀ p ∈ m.argRegs.zip call.args, (entered m call.args call.start).regs (.number p.1) = p.2.2 := by
  intro p member
  have whole : p.2.2 % 256 ^ m.word = p.2.2 := by
    have wide := call.wide _ (List.of_mem_zip member).2
    cases m with
    | i386 => exact nomatch (List.of_mem_zip member).1
    | x86_64 => exact Nat.mod_eq_of_lt wide
  have other := sp_other m call.args p member
  have value := assigned_reg (m := m) (s := call.start) (registers_nodup m call.args) p member
  have kept : (entered m call.args call.start).regs (.number p.1) = (assigned m call.start (m.argRegs.zip call.args)).regs (.number p.1) :=
    if_neg other.symm
  rw [kept,value,whole]

theorem Injected.Room.stack (room : call.Room) : Placed m (entered m call.args call.start).mem
    ((entered m call.args call.start).regs m.sp + m.word) (onStack m call.args) ∧
    ∀ a, call.start.regs m.sp ≤ a → (entered m call.args call.start).mem a = call.start.mem a := by
  have low : call.start.regs m.sp < 2 ^ 64 := Nat.lt_of_lt_of_le call.sp (by cases m <;> decide)
  obtain ⟨inside,small⟩ := room
  have ⟨placed,kept⟩ := pushed_placed (m := m) call.start.mem (onStack m call.args) low (by omega) (by omega)
  have behind : call.start.regs m.sp - (m.word + area m (onStack m call.args)) + m.word = call.start.regs m.sp - area m (onStack m call.args) := by
    omega
  have memory : (entered m call.args call.start).mem = writeMem (pushedMem m (call.start.regs m.sp) call.start.mem (onStack m call.args))
      (call.start.regs m.sp - (m.word + area m (onStack m call.args))) m.word (call.start.regs .pc) := by
    rw [← Injected.Room.addr ⟨inside,small⟩]
    rfl
  rw [memory,Injected.Room.sp ⟨inside,small⟩,behind]
  exact ⟨placed.congr fun a above => writeMem_outside (by omega),fun a above => (writeMem_outside (by omega)).trans (kept a above)⟩

theorem Injected.Room.return_ (room : call.Room) : ∀ k < m.word,
    (entered m call.args call.start).mem ((entered m call.args call.start).regs m.sp + k) = UInt8.ofNat (call.start.regs .pc / 256 ^ k) := by
  intro k inside
  rw [room.sp,← room.addr]
  exact writeMem_inside inside

theorem Injected.Room.conforms (room : call.Room) (small : ∀ x ∈ call.args, x.1.sizeFormal ≤ 8)
    (aligned : (call.start.regs m.sp - area m (onStack m call.args)) % 16 = 0) :
    Conforms m call.args call.start (entered m call.args call.start) where
  small := small
  registers := entered_registers
  stack := room.stack.1
  return_ := room.return_
  below := by
    rw [room.sp]
    have inside := room.1
    omega
  aligned := by
    rw [room.sp]
    have inside := room.1
    rwa [show call.start.regs m.sp - (m.word + area m (onStack m call.args)) + m.word =
      call.start.regs m.sp - area m (onStack m call.args) by omega]
  kept := room.stack.2

theorem Injected.Follows.conforms (follows : call.Follows) : Conforms m call.args call.start (entered m call.args call.start) := by
  obtain ⟨cmds,s',built,runs,conforms⟩ := follows
  obtain ⟨cmds',built',runs'⟩ := call.run conforms.small
  rw [Except.ok.inj (built.symm.trans built')] at runs
  have left : s' = entered m call.args call.start := Except.ok.inj (runs.symm.trans runs')
  rwa [← left]

end Entry

/-- A call with seven `int` arguments, one of them on the stack -/
def sevenArguments : Injected .x86_64 where
  args := List.replicate 7 (⟨.integer,.integer,4⟩,1)
  ret := none
  addr := 0x401000
  retAddr := 0x400000
  start := { regs := fun reg => if reg = .pc then 0x400000 else 0x7fff0000, mem := fun _ => 0 }
  passed := by decide
  returned := nofun
  wide x member := by
    rw [List.eq_of_mem_replicate member]
    exact Nat.one_lt_two_pow (by decide)
  sp := by decide
  aligned := by decide

end Tcf.FuncCall
