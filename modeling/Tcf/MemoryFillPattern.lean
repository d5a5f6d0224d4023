import Mathlib.Algebra.Order.Ring.Int
import Mathlib.Data.List.GetD
import Tcf.MemoryFill

/-! When a fill ends and leaves the pattern in memory, again and again, and nothing else. -/
namespace Tcf.MemoryFill

section Read

variable {args : MemoryCommandArgs} {values : List Nat}

theorem put_fits {bytes : List UInt8} (fits : args.buf.length + bytes.length ≤ args.max) :
    args.put bytes = .ok { args with buf := args.buf ++ bytes } := if_pos fits

theorem readMemoryFillArrayCb_run {value : Nat} (small : args.buf.length ≤ args.max) :
    ∃ max, readMemoryFillArrayCb args value = .ok { args with buf := args.buf ++ [UInt8.ofNat value], max := max } ∧
      args.buf.length + 1 ≤ max := by
  unfold readMemoryFillArrayCb
  by_cases full : args.buf.length ≥ args.max
  · rw [if_pos full]
    have room : args.buf.length + 1 ≤ if args.max = 0 then BUF_SIZE else args.max * 2 := by
      by_cases zero : args.max = 0
      · rw [if_pos zero]
        unfold BUF_SIZE
        omega
      · rw [if_neg zero]
        omega
    exact ⟨_,put_fits room,room⟩
  · rw [if_neg full]
    exact ⟨args.max,put_fits (Nat.lt_of_not_le full),Nat.lt_of_not_le full⟩

theorem foldlM_run (small : args.buf.length ≤ args.max) : ∃ max,
    values.foldlM readMemoryFillArrayCb args = .ok { args with buf := args.buf ++ values.map UInt8.ofNat, max := max } ∧
      args.buf.length + values.length ≤ max := by
  induction values generalizing args with
  | nil => exact ⟨args.max,by simp,small⟩
  | cons value values ih =>
    obtain ⟨max,run,room⟩ := @readMemoryFillArrayCb_run args value small
    have small' : ({ args with buf := args.buf ++ [UInt8.ofNat value], max := max } : MemoryCommandArgs).buf.length ≤ max := by
      simpa using room
    obtain ⟨max',run',room'⟩ := ih small'
    refine ⟨max',?_,?_⟩
    · rw [List.foldlM_cons,run,Code.ok_bind,run']
      simp
    · simp only [List.length_append,List.length_singleton] at room'
      simp only [List.length_cons]
      omega

/-- All the values are in the buffer. Without any of them there is no buffer. -/
theorem readCommandArgs_run (addr : BitVec 64) (size : Nat) (values : List Nat) : ∃ max,
    readCommandArgs addr size values = .ok ⟨addr,(BitVec.ofNat 32 size).signExtend 64,values.map UInt8.ofNat,max⟩ ∧
      values.length ≤ max ∧ (values = [] → max = 0) := by
  cases values with
  | nil => exact ⟨0,rfl,Nat.le_refl 0,fun _ => rfl⟩
  | cons value values =>
    obtain ⟨max,run,room⟩ := @foldlM_run ⟨addr,(BitVec.ofNat 32 size).signExtend 64,[],0⟩ (value :: values) (Nat.le_refl 0)
    exact ⟨max,run,by simpa using room,nofun⟩

end Read

section Grow

variable {args : MemoryCommandArgs} {pattern buf : List UInt8}

/-- The buffer holds the pattern, again and again. -/
structure Periodic (pattern buf : List UInt8) : Prop where
  whole : buf.length % pattern.length = 0
  byte : ∀ i < buf.length, buf.getD i 0 = pattern.getD (i % pattern.length) 0

theorem Periodic.self (pattern : List UInt8) : Periodic pattern pattern where
  whole := Nat.mod_self _
  byte i inside := by rw [Nat.mod_eq_of_lt inside]

theorem Periodic.double (periodic : Periodic pattern buf) : Periodic pattern (buf ++ buf) where
  whole := by
    rw [List.length_append,Nat.add_mod,periodic.whole]
    simp
  byte i inside := by
    rw [List.length_append] at inside
    by_cases first : i < buf.length
    · rw [List.getD_append _ _ _ _ first]
      exact periodic.byte i first
    · have less : buf.length ≤ i := Nat.le_of_not_lt first
      have phase : i % pattern.length = (i - buf.length) % pattern.length := by
        conv_lhs => rw [← Nat.sub_add_cancel less,Nat.add_mod,periodic.whole,Nat.add_zero,Nat.mod_mod]
      rw [List.getD_append_right _ _ _ _ less,phase]
      exact periodic.byte _ (by omega)

/-- The buffer is never left, and holds the pattern at the end. -/
theorem grow_run {rounds : Nat} (periodic : Periodic pattern args.buf) (some_ : 0 < args.buf.length) (fits : args.buf.length ≤ args.max)
    (enough : args.max < args.buf.length + rounds) :
    ∃ buf, grow rounds args = .ok { args with buf := buf } ∧ Periodic pattern buf ∧ 0 < buf.length := by
  induction rounds generalizing args with
  | zero => omega
  | succ rounds ih =>
    rw [grow]
    by_cases more : args.buf.length < args.size.toNat ∧ args.buf.length ≤ args.max / 2
    · have room : args.buf.length + args.buf.length ≤ args.max := by omega
      have full : args.buf.length ≠ 0 := by omega
      rw [if_pos more,if_neg full,put_fits room,Code.ok_bind]
      have longer : (args.buf ++ args.buf).length = args.buf.length + args.buf.length := List.length_append
      exact ih periodic.double (by simp only [longer]; omega) (by simp only [longer]; omega) (by simp only [longer]; omega)
    · rw [if_neg more]
      exact ⟨args.buf,rfl,periodic,some_⟩

end Grow

section Loop

variable {args : MemoryCommandArgs} {pattern : List UInt8} {rounds d : Nat} {memory : Memory} {addr : BitVec 64}

/-- The pattern from the byte `d` of an area on. -/
def patternFrom (pattern : List UInt8) (start d size : Nat) (memory : Memory) : Memory := fun a =>
  if start + d ≤ a ∧ a < start + size then pattern.getD ((a - start) % pattern.length) 0 else memory a

/-- The test of the loop, and what is left, as long as the end of the area does not wrap around. -/
theorem loop_here (plain : args.addr.toNat + args.size.toNat < 2 ^ 64) (here : addr.toNat = args.addr.toNat + d) (inside : d ≤ args.size.toNat) :
    (addr < args.addr + args.size ↔ d < args.size.toNat) ∧
      ((args.addr + args.size - addr).setWidth 32).toNat = (args.size.toNat - d) % 2 ^ 32 := by
  have stop : (args.addr + args.size).toNat = args.addr.toNat + args.size.toNat := by
    rw [BitVec.toNat_add,Nat.mod_eq_of_lt plain]
  constructor
  · rw [BitVec.lt_def,stop,here]
    omega
  · rw [BitVec.toNat_setWidth,BitVec.toNat_sub,stop,here]
    omega

theorem addr_onward {wr : Nat} (here : addr.toNat = args.addr.toNat + d) (small : args.addr.toNat + (d + wr) < 2 ^ 64) :
    (addr + BitVec.ofNat 64 wr).toNat = args.addr.toNat + (d + wr) := by
  rw [BitVec.toNat_add,BitVec.toNat_ofNat,here]
  omega

/-- One chunk, and the pattern behind it. -/
theorem patternFrom_store {wr : Nat} (periodic : Periodic pattern args.buf) (here : addr.toNat = args.addr.toNat + d) (phase : d % pattern.length = 0)
    (fits : wr ≤ args.buf.length) (inside : d + wr ≤ args.size.toNat) :
    patternFrom pattern args.addr.toNat (d + wr) args.size.toNat (store memory addr (args.buf.take wr)).1 =
      patternFrom pattern args.addr.toNat d args.size.toNat memory := by
  funext a
  unfold patternFrom store
  simp only [here,List.length_take,Nat.min_eq_left fits]
  by_cases behind : args.addr.toNat + (d + wr) ≤ a ∧ a < args.addr.toNat + args.size.toNat
  · rw [if_pos behind,if_pos (by omega)]
  rw [if_neg behind]
  by_cases chunk : args.addr.toNat + d ≤ a ∧ a < args.addr.toNat + d + wr
  · have near : a - (args.addr.toNat + d) < wr := by omega
    have sum : a - args.addr.toNat = d + (a - (args.addr.toNat + d)) := by omega
    have byte : (args.buf.take wr).getD (a - (args.addr.toNat + d)) 0 = args.buf.getD (a - (args.addr.toNat + d)) 0 := by
      rw [List.getD_eq_getElem?_getD,List.getD_eq_getElem?_getD,List.getElem?_take_of_lt near]
    rw [if_pos chunk,if_pos (by omega),byte,periodic.byte _ (by omega),sum,Nat.add_mod d,phase,Nat.zero_add,Nat.mod_mod]
  · rw [if_neg chunk,if_neg (by omega)]

theorem memoryFillCacheClient_run (periodic : Periodic pattern args.buf) (some_ : 0 < args.buf.length)
    (plain : args.addr.toNat + args.size.toNat < 2 ^ 64) (small : args.size.toNat < 2 ^ 32) (here : addr.toNat = args.addr.toNat + d)
    (inside : d ≤ args.size.toNat) (phase : d % pattern.length = 0 ∨ d = args.size.toNat) (enough : args.size.toNat < d + rounds) :
    memoryFillCacheClient store args rounds memory addr = .ok (patternFrom pattern args.addr.toNat d args.size.toNat memory,0) := by
  induction rounds generalizing memory addr d with
  | zero => omega
  | succ rounds ih =>
    obtain ⟨test,left⟩ := loop_here plain here inside
    have whole : (args.size.toNat - d) % 2 ^ 32 = args.size.toNat - d := Nat.mod_eq_of_lt (by omega)
    rw [memoryFillCacheClient,left,whole]
    by_cases more : d < args.size.toNat
    · rw [if_pos (test.mpr more)]
      have phase : d % pattern.length = 0 := phase.resolve_right (by omega)
      generalize size : min (args.size.toNat - d) args.buf.length = wr
      have fits : wr ≤ args.buf.length := by omega
      have onward : d + wr ≤ args.size.toNat := by omega
      have phase' : (d + wr) % pattern.length = 0 ∨ d + wr = args.size.toNat := by
        rcases Nat.le_total (args.size.toNat - d) args.buf.length with last | chunk
        · right
          omega
        · left
          rw [Nat.min_eq_right chunk] at size
          rw [← size,Nat.add_mod,phase,periodic.whole]
          simp
      have run := @ih (d + wr) (store memory addr (args.buf.take wr)).1 (addr + BitVec.ofNat 64 wr)
        (addr_onward here (by omega)) onward phase' (by omega)
      rw [patternFrom_store periodic here phase fits onward] at run
      exact run
    · rw [if_neg (mt test.mp more)]
      have done : patternFrom pattern args.addr.toNat d args.size.toNat memory = memory := by
        funext a
        exact if_neg (by omega)
      rw [done]

/-- What is left is never less than `2 ^ 32` when it was not at the start: the chunks of its last 32 bits come to nothing. -/
theorem memoryFillCacheClient_stuck (plain : args.addr.toNat + args.size.toNat < 2 ^ 64) (here : addr.toNat = args.addr.toNat + d)
    (far : 2 ^ 32 ≤ args.size.toNat - d) : memoryFillCacheClient store args rounds memory addr = .error .stuck := by
  induction rounds generalizing memory addr d with
  | zero => rfl
  | succ rounds ih =>
    obtain ⟨test,left⟩ := loop_here plain here (by omega)
    rw [memoryFillCacheClient,left,if_pos (test.mpr (by omega))]
    generalize size : min ((args.size.toNat - d) % 2 ^ 32) args.buf.length = wr
    have low : wr ≤ (args.size.toNat - d) % 2 ^ 32 := by
      rw [← size]
      exact Nat.min_le_left ..
    exact ih (addr_onward here (by omega)) (by omega)

/-- More rounds make no difference. -/
theorem memoryFillCacheClient_more {write : Memory → BitVec 64 → List UInt8 → Memory × Nat} {result : Memory × Nat} {more : Nat}
    (run : memoryFillCacheClient write args rounds memory addr = .ok result) (enough : rounds ≤ more) :
    memoryFillCacheClient write args more memory addr = .ok result := by
  induction rounds generalizing memory addr more with
  | zero => cases run
  | succ rounds ih =>
    obtain ⟨more,rfl⟩ := Nat.exists_eq_add_of_le' (Nat.le_trans (Nat.succ_le_succ (Nat.zero_le rounds)) enough)
    rw [memoryFillCacheClient] at run ⊢
    by_cases test : addr < args.addr + args.size
    · rw [if_pos test] at run ⊢
      by_cases failed : (write memory addr (args.buf.take
          (min ((args.addr + args.size - addr).setWidth 32).toNat args.buf.length))).2 ≠ 0
      · rw [if_pos failed] at run ⊢
        exact run
      · rw [if_neg failed] at run ⊢
        exact ih run (by omega)
    · rw [if_neg test] at run ⊢
      exact run

/-- An area behind which the addresses start again at 0 is not written at all. -/
theorem memoryFillCacheClient_wrap (some_ : 0 < args.size.toNat) (wraps : 2 ^ 64 ≤ args.addr.toNat + args.size.toNat) :
    memoryFillCacheClient store args (rounds + 1) memory args.addr = .ok (memory,0) := by
  have stop : (args.addr + args.size).toNat = args.addr.toNat + args.size.toNat - 2 ^ 64 := by
    rw [BitVec.toNat_add]
    omega
  rw [memoryFillCacheClient,if_neg]
  rw [BitVec.lt_def,stop]
  omega

end Loop

section Fill

variable {addr : BitVec 64} {size : Nat} {values : List Nat}

/-- The command ends, the bytes of the area are those of the pattern, and the others are as before. -/
def Fills (addr : BitVec 64) (size : Nat) (values : List Nat) : Prop :=
  ∀ memory, ∃ rounds, commandFill store addr size values rounds memory =
    .ok (patternFrom (values.map UInt8.ofNat) addr.toNat 0 size memory,0)

theorem size_eq (size : Nat) : ((BitVec.ofNat 32 size).signExtend 64).toNat =
    if size % 2 ^ 32 < 2 ^ 31 then size % 2 ^ 32 else size % 2 ^ 32 + (2 ^ 64 - 2 ^ 32) := by
  have low : size % 2 ^ 32 < 2 ^ 32 := Nat.mod_lt _ (by omega)
  rw [BitVec.toNat_signExtend,BitVec.toNat_setWidth,BitVec.toNat_ofNat,BitVec.msb_eq_decide,BitVec.toNat_ofNat,
    Nat.mod_eq_of_lt (by omega : size % 2 ^ 32 < 2 ^ 64)]
  by_cases positive : size % 2 ^ 32 < 2 ^ 31
  · rw [if_pos positive,if_neg]
    · exact Nat.add_zero _
    · rw [decide_eq_true_iff]
      omega
  · rw [if_neg positive,if_pos]
    rw [decide_eq_true_iff]
    omega

theorem commandFill_eq {max rounds : Nat} {memory : Memory} {args : MemoryCommandArgs}
    (read : readCommandArgs addr size values = .ok ⟨addr,(BitVec.ofNat 32 size).signExtend 64,values.map UInt8.ofNat,max⟩)
    (grown : grow (max + 2) ⟨addr,(BitVec.ofNat 32 size).signExtend 64,values.map UInt8.ofNat,max⟩ = .ok args) :
    commandFill store addr size values rounds memory = memoryFillCacheClient store args rounds memory args.addr := by
  simp only [commandFill,read,grown,Code.ok_bind]

/-- A byte of the area that stays as it is can have been another one. -/
theorem untouched {args : MemoryCommandArgs} {pattern : List UInt8} {k : Nat} (inside : k < size)
    (stays : ∀ memory, ∃ rounds result, memoryFillCacheClient store args rounds memory args.addr = .ok result ∧
      result.1 (addr.toNat + k) = memory (addr.toNat + k)) :
    ¬∀ memory, ∃ rounds, memoryFillCacheClient store args rounds memory args.addr = .ok (patternFrom pattern addr.toNat 0 size memory,0) := by
  intro fills
  obtain ⟨rounds,ran⟩ := fills fun _ => pattern.getD (k % pattern.length) 0 + 1
  obtain ⟨rounds',result,ran',same⟩ := stays fun _ => pattern.getD (k % pattern.length) 0 + 1
  have equal := (memoryFillCacheClient_more ran (Nat.le_max_left rounds rounds')).symm.trans
    (memoryFillCacheClient_more ran' (Nat.le_max_right rounds rounds'))
  rw [← Except.ok.inj equal] at same
  have there : addr.toNat + 0 ≤ addr.toNat + k ∧ addr.toNat + k < addr.toNat + size := by omega
  simp only [patternFrom,if_pos there,Nat.add_sub_cancel_left] at same
  generalize pattern.getD (k % pattern.length) 0 = byte at same
  revert same
  simp

theorem fills_nothing : Fills addr 0 values := by
  intro memory
  obtain ⟨max,read,-⟩ := readCommandArgs_run addr 0 values
  have zero : ((BitVec.ofNat 32 0).signExtend 64 : BitVec 64) = 0 := by decide
  have grown : grow (max + 2) ⟨addr,(BitVec.ofNat 32 0).signExtend 64,values.map UInt8.ofNat,max⟩ = .ok ⟨addr,0,values.map UInt8.ofNat,max⟩ := by
    rw [zero,grow,if_neg]
    simp
  have same : patternFrom (values.map UInt8.ofNat) addr.toNat 0 0 memory = memory := by
    funext a
    exact if_neg (by omega)
  refine ⟨1,?_⟩
  rw [commandFill_eq read grown,same,memoryFillCacheClient,if_neg]
  simp

/-- Without any value, a byte is put where there is no buffer. -/
theorem fills_empty (some_ : 0 < size) : ¬Fills addr size [] := by
  intro fills
  obtain ⟨max,read,-,none_⟩ := readCommandArgs_run addr size []
  obtain rfl := none_ rfl
  by_cases zero : ((BitVec.ofNat 32 size).signExtend 64 : BitVec 64) = 0
  · have grown : grow (0 + 2) ⟨addr,(BitVec.ofNat 32 size).signExtend 64,[].map UInt8.ofNat,0⟩ = .ok ⟨addr,0,[],0⟩ := by
      rw [zero]
      rfl
    have run : ∀ memory, ∃ rounds, memoryFillCacheClient store ⟨addr,0,[],0⟩ rounds memory addr =
        .ok (patternFrom [] addr.toNat 0 size memory,0) := by
      intro memory
      obtain ⟨rounds,ran⟩ := fills memory
      rw [commandFill_eq read grown] at ran
      exact ⟨rounds,ran⟩
    refine @untouched addr size ⟨addr,0,[],0⟩ [] 0 some_ (fun memory => ⟨1,(memory,0),?_,rfl⟩) run
    rw [memoryFillCacheClient,if_neg]
    simp
  · have more : 0 < ((BitVec.ofNat 32 size).signExtend 64 : BitVec 64).toNat :=
      Nat.pos_of_ne_zero fun none_ => zero (BitVec.eq_of_toNat_eq none_)
    obtain ⟨rounds,ran⟩ := fills fun _ => 0
    have fault : grow (0 + 2) ⟨addr,(BitVec.ofNat 32 size).signExtend 64,[].map UInt8.ofNat,0⟩ = .error .fault := by
      rw [grow,if_pos ⟨more,Nat.zero_le _⟩]
      rfl
    simp only [commandFill,read,fault,Code.ok_bind,Code.error_bind] at ran
    cases ran

/-- With a buffer that holds the pattern, the area has to be in front of the last address, and its size has to be that of the command. -/
theorem grown_fills_iff {args : MemoryCommandArgs} {pattern : List UInt8} (periodic : Periodic pattern args.buf) (full : 0 < args.buf.length)
    (some_ : 0 < size) (stored : args.size.toNat = if size % 2 ^ 32 < 2 ^ 31 then size % 2 ^ 32 else size % 2 ^ 32 + (2 ^ 64 - 2 ^ 32)) :
    (∀ memory, ∃ rounds, memoryFillCacheClient store args rounds memory args.addr =
      .ok (patternFrom pattern args.addr.toNat 0 size memory,0)) ↔ args.addr.toNat + size < 2 ^ 64 ∧ size < 2 ^ 31 := by
  have here : args.addr.toNat = args.addr.toNat + 0 := rfl
  by_cases wraps : 2 ^ 64 ≤ args.addr.toNat + args.size.toNat
  · have more : 0 < args.size.toNat := by omega
    refine iff_of_false (untouched some_ fun memory => ⟨1,(memory,0),memoryFillCacheClient_wrap more wraps,rfl⟩) ?_
    rintro ⟨plain,small⟩
    rw [if_pos (by omega)] at stored
    omega
  have plain : args.addr.toNat + args.size.toNat < 2 ^ 64 := Nat.lt_of_not_le wraps
  by_cases far : 2 ^ 32 ≤ args.size.toNat
  · refine iff_of_false (fun fills => ?_) ?_
    · obtain ⟨rounds,ran⟩ := fills fun _ => 0
      rw [memoryFillCacheClient_stuck plain here far] at ran
      cases ran
    · rintro ⟨-,small⟩
      rw [if_pos (by omega)] at stored
      omega
  have small : args.size.toNat < 2 ^ 32 := Nat.lt_of_not_le far
  have run (memory : Memory) : memoryFillCacheClient store args (args.size.toNat + 1) memory args.addr =
      .ok (patternFrom pattern args.addr.toNat 0 args.size.toNat memory,0) :=
    memoryFillCacheClient_run periodic full plain small here (Nat.zero_le _) (.inl (Nat.zero_mod _)) (by omega)
  by_cases same : args.size.toNat = size
  · rw [same] at run
    refine iff_of_true (fun memory => ⟨_,run memory⟩) ⟨same ▸ plain,?_⟩
    by_cases low : size % 2 ^ 32 < 2 ^ 31
    · rw [if_pos low] at stored
      omega
    · rw [if_neg low] at stored
      omega
  · have less : args.size.toNat < size := by
      by_cases low : size % 2 ^ 32 < 2 ^ 31
      · rw [if_pos low] at stored
        omega
      · rw [if_neg low] at stored
        omega
    refine iff_of_false (untouched less fun memory => ⟨_,_,run memory,if_neg (by omega)⟩) ?_
    rintro ⟨-,little⟩
    rw [if_pos (by omega)] at stored
    omega

/-- The command fills when it has nothing to do, or when the pattern has a byte, the area does not reach the last address, and its size
is an `int`. -/
theorem fills_iff (addr : BitVec 64) (size : Nat) (values : List Nat) :
    Fills addr size values ↔ size = 0 ∨ (values ≠ [] ∧ addr.toNat + size < 2 ^ 64 ∧ size < 2 ^ 31) := by
  rcases Nat.eq_zero_or_pos size with rfl | some_
  · exact iff_of_true fills_nothing (.inl rfl)
  cases values with
  | nil => exact iff_of_false (fills_empty some_) (by rintro (rfl | ⟨empty,-⟩); exacts [absurd some_ (Nat.lt_irrefl 0),empty rfl])
  | cons value values =>
    obtain ⟨max,read,room,-⟩ := readCommandArgs_run addr size (value :: values)
    obtain ⟨buf,grown,periodic,full⟩ := @grow_run ⟨addr,(BitVec.ofNat 32 size).signExtend 64,(value :: values).map UInt8.ofNat,max⟩
      ((value :: values).map UInt8.ofNat) (max + 2) (Periodic.self _) (by simp) (by simpa using room) (by simp only; omega)
    have run : Fills addr size (value :: values) ↔ ∀ memory, ∃ rounds, memoryFillCacheClient store
        ⟨addr,(BitVec.ofNat 32 size).signExtend 64,buf,max⟩ rounds memory addr =
          .ok (patternFrom ((value :: values).map UInt8.ofNat) addr.toNat 0 size memory,0) := by
      unfold Fills
      simp only [commandFill_eq read grown]
    rw [run]
    refine (grown_fills_iff periodic full some_ (size_eq size)).trans ⟨fun both => .inr ⟨nofun,both⟩,?_⟩
    rintro (rfl | ⟨-,both⟩)
    · exact absurd some_ (Nat.lt_irrefl 0)
    · exact both

theorem empty_pattern_faults : ¬Fills 0 1 [] := fills_empty (by decide)

end Fill

end Tcf.MemoryFill
