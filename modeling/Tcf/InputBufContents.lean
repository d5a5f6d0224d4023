import Tcf.InputBuf

/-! What an input buffer holds, as the tokens its bytes stand for. Bytes between
`cur` and `stop` are already known to be literal; the others are still to be decoded. -/
namespace Tcf.InputBuf

open Framing Circular

/-- How the fields of either scan encode its mode. -/
def flags : Mode → Bool × Nat × Nat
  | .plain => (false,0,0)
  | .escaped => (true,0,0)
  | .size count acc => (false,count,acc)
  | .data remaining => (false,0,remaining)

def outFlags (b : InputBuf) : Bool × Nat × Nat := (b.outEsc,b.outSizeMode,b.outDataSize)

def inpFlags (b : InputBuf) : Bool × Nat × Nat := (b.inpEsc,b.inpSizeMode,b.inpDataSize)

/-- The mode that flags encode. -/
def modeOf : Bool × Nat × Nat → Mode
  | (esc,count,size) =>
    if count ≠ 0 then .size count size
    else if size > 0 then .data size
    else if esc then .escaped else .plain

theorem modeOf_flags (m : Mode) (valid : m.Valid) : modeOf (flags m) = m := by
  cases m <;> simp_all [modeOf,flags,Mode.Valid,Nat.pos_iff_ne_zero]

def setOut (b : InputBuf) (m : Mode) : InputBuf :=
  { b with outEsc := (flags m).1, outSizeMode := (flags m).2.1, outDataSize := (flags m).2.2 }

def setInp (b : InputBuf) (m : Mode) : InputBuf :=
  { b with inpEsc := (flags m).1, inpSizeMode := (flags m).2.1, inpDataSize := (flags m).2.2 }

/-- Number of received bytes from a position on. -/
def span (b : InputBuf) (position : Nat) : Nat :=
  if position ≤ b.inp then b.inp - position else b.inp + b.bufSize - position

/-- The received bytes from a position on. -/
def ahead (b : InputBuf) (position : Nat) : List UInt8 :=
  slice b.buf b.bufSize position (span b position)

/-- The stream pointers moved. -/
def place (b : InputBuf) (cur stop : Nat) : InputBuf := { b with cur, stop }

def seek (b : InputBuf) (position : Nat) : InputBuf := place b position position

variable (int : IntShift)

/-- The unread tokens: `lit` literal bytes from `cur` on, then what the rest stands for
in the mode of the output scan. The input scan has decoded all of it. `whole` is all that
was ever received. A reader that waits for input leaves `stop` behind. -/
structure Holds (whole : List UInt8) (b : InputBuf) (lit : Nat) (m : Mode) (toks : List Token) :
    Prop where
  large : 128 ≤ b.bufSize
  inside : b.inp < b.bufSize
  order : b.cur + lit ≤ b.inp ∨ (b.inp < b.cur ∧ b.cur + lit ≤ b.bufSize)
  settled : b.stop = b.cur + lit ∨ (lit = 0 ∧ b.cur < b.bufSize)
  outFlags : b.outFlags = flags m
  valid : m.Valid
  inpFlags : b.inpFlags = flags (after int m (ahead b (b.cur + lit)))
  toks : (slice b.buf b.bufSize b.cur lit).map .byte ++ tokens int m (ahead b (b.cur + lit)) = toks
  scan : ∃ front, front ++ ahead b (b.cur + lit) = whole ∧ after int .plain front = m
  posted : ∀ position size, b.readPending = some (position,size) → b.eof = false ∧
    position = b.inp ∧ 0 < size ∧ position + size ≤ b.bufSize ∧ span b b.cur + size < b.bufSize

@[simp] theorem span_inp (b : InputBuf) : span b b.inp = 0 := by simp [span]

@[simp] theorem ahead_inp (b : InputBuf) : ahead b b.inp = [] := by simp [ahead]

@[simp] theorem ahead_length (b : InputBuf) (position : Nat) :
    (ahead b position).length = span b position := by simp [ahead]

/-- The end of the buffer is its beginning. -/
theorem span_wrap (b : InputBuf) (inside : b.inp < b.bufSize) : span b b.bufSize = span b 0 := by
  simp only [span]
  split
  · omega
  · rw [if_pos (Nat.zero_le _)]
    omega

theorem ahead_wrap (b : InputBuf) (inside : b.inp < b.bufSize) : ahead b b.bufSize = ahead b 0 := by
  simp only [ahead,span_wrap b inside]
  exact slice_start_congr _ _ _ _ _ (by simp)

variable {position : Nat}

theorem span_succ (b : InputBuf) (low : position < b.bufSize)
    (more : position ≠ b.inp) :
    span b position = span b (position + 1) + 1 := by
  simp only [span]
  split <;> split <;> omega

theorem ahead_cons (b : InputBuf) (low : position < b.bufSize)
    (more : position ≠ b.inp) :
    ahead b position = b.buf position :: ahead b (position + 1) := by
  simp only [ahead,span_succ b low more,slice_succ,Nat.mod_eq_of_lt low]

/-- A run that does not wrap, ahead of the rest. -/
theorem ahead_run (b : InputBuf) (position n : Nat)
    (order : position + n ≤ b.inp ∨ (b.inp < position ∧ position + n ≤ b.bufSize)) :
    ahead b position = slice b.buf b.bufSize position n ++ ahead b (position + n) := by
  have split : span b position = n + span b (position + n) := by
    simp only [span]
    split <;> split <;> omega
  rw [ahead,split,slice_append,ahead]

namespace Holds

variable {int} {whole : List UInt8} {b : InputBuf} {lit : Nat} {m : Mode} {toks : List Token}

section

variable (h : Holds int whole b lit m toks)

include h

theorem span_bound : lit + span b (b.cur + lit) = span b b.cur ∧
    span b b.cur < b.bufSize := by
  have := h.inside
  have := h.order
  simp only [span]
  constructor <;> split <;> first | omega | (split <;> omega)

/-- After the end of the stream no read is posted. -/
theorem idle (eof : b.eof = true) : b.readPending = none := by
  cases pending : b.readPending with
  | none => rfl
  | some read =>
    have open_ := (h.posted _ _ pending).1
    rw [eof] at open_
    cases open_

/-- Fields that say nothing about the contents may change. -/
theorem transport {next : InputBuf}
    (size : next.bufSize = b.bufSize) (buf : next.buf = b.buf) (inp : next.inp = b.inp)
    (cur : next.cur = b.cur) (stop : next.stop = b.stop) (out : next.outFlags = b.outFlags)
    (inpf : next.inpFlags = b.inpFlags)
    (posted : ∀ position size, next.readPending = some (position,size) → next.eof = false ∧
      position = next.inp ∧ 0 < size ∧ position + size ≤ next.bufSize ∧
      span next next.cur + size < next.bufSize) : Holds int whole next lit m toks := by
  have spans : ∀ p, span next p = span b p := by intro p; simp [span,inp,size]
  have aheads : ∀ p, ahead next p = ahead b p := by intro p; simp [ahead,spans,buf,size]
  constructor
  case large => rw [size]; exact h.large
  case inside => rw [size,inp]; exact h.inside
  case order => rw [size,inp,cur]; exact h.order
  case settled => rw [size,stop,cur]; exact h.settled
  case outFlags => rw [out]; exact h.outFlags
  case valid => exact h.valid
  case inpFlags => rw [inpf,cur,aheads]; exact h.inpFlags
  case toks => rw [cur,aheads,buf,size]; exact h.toks
  case scan => rw [cur,aheads]; exact h.scan
  case posted => exact posted

/-- A pointer at the end of the buffer may as well be at its beginning. -/
theorem reset (last : b.cur = b.bufSize) :
    lit = 0 ∧ Holds int whole (seek b 0) 0 m toks := by
  have inside := h.inside
  have order := h.order
  obtain rfl : lit = 0 := by omega
  have around := ahead_wrap b inside
  refine ⟨rfl,h.large,inside,.inl (Nat.zero_le _),Or.inl rfl,h.outFlags,h.valid,?_,?_,?_,?_⟩
  · have := h.inpFlags
    rwa [Nat.add_zero,last,around] at this
  · have := h.toks
    rwa [Nat.add_zero,last,around] at this
  · have := h.scan
    rwa [Nat.add_zero,last,around] at this
  · intro position size pending
    obtain ⟨eof,start,positive,fits,room⟩ := h.posted position size pending
    rw [last,span_wrap b inside] at room
    exact ⟨eof,start,positive,fits,room⟩

omit h in
/-- The first literal byte is read. -/
theorem consume (h : Holds int whole b (lit + 1) m toks) :
    ∃ rest, toks = .byte (b.buf b.cur) :: rest ∧
      Holds int whole (place b (b.cur + 1) b.stop) lit m rest ∧ b.stop = b.cur + 1 + lit := by
  have inside := h.inside
  have order := h.order
  have low : b.cur < b.bufSize := by omega
  have next : b.cur + 1 + lit = b.cur + (lit + 1) := by omega
  have stop : b.stop = b.cur + 1 + lit := by
    rcases h.settled with settled | ⟨none_,_⟩
    · omega
    · cases none_
  refine ⟨_,?_,⟨h.large,inside,?_,.inl stop,h.outFlags,h.valid,?_,rfl,?_,?_⟩,stop⟩
  · rw [← h.toks,slice_succ,Nat.mod_eq_of_lt low]
    simp only [List.map_cons,List.cons_append,place,next]
    rfl
  · simp only [place]
    omega
  · simp only [place,next]
    exact h.inpFlags
  · simp only [place,next]
    exact h.scan
  · intro position size pending
    obtain ⟨eof,start,positive,fits,room⟩ := h.posted position size pending
    refine ⟨eof,start,positive,fits,?_⟩
    have less := span_succ b low (by omega)
    change span b (b.cur + 1) + size < b.bufSize
    omega

omit h in
/-- The output scan takes one byte. -/
theorem advance (h : Holds int whole (seek b position) 0 m toks)
    (low : position < b.bufSize) (more : position ≠ b.inp) :
    ∃ rest, toks = (step int m (b.buf position)).2.toList ++ rest ∧
      Holds int whole (seek (setOut b (step int m (b.buf position)).1) (position + 1)) 0
        (step int m (b.buf position)).1 rest := by
  have inside := h.inside
  have order := h.order
  have cons := ahead_cons b low more
  change ahead (seek b position) (position + 0) = _ at cons
  refine ⟨_,?_,⟨h.large,inside,?_,.inl rfl,rfl,step_valid ..,?_,rfl,?_,?_⟩⟩
  · have toks := h.toks
    change _ ++ tokens int m (ahead (seek b position) (position + 0)) = _ at toks
    rw [cons,tokens_cons] at toks
    exact toks.symm
  · simp only [seek,place,setOut] at order inside ⊢
    omega
  · have inp := h.inpFlags
    change _ = flags (after int m (ahead (seek b position) (position + 0))) at inp
    rw [cons,after_cons] at inp
    exact inp
  · obtain ⟨front,all,mode⟩ := h.scan
    change front ++ ahead (seek b position) (position + 0) = whole at all
    refine ⟨front ++ [b.buf position],?_,?_⟩
    · rw [cons] at all
      rw [← all,List.append_assoc]
      rfl
    · rw [after_append,mode]
      rfl
  · intro old size pending
    obtain ⟨eof,start,positive,fits,room⟩ := h.posted old size pending
    refine ⟨eof,start,positive,fits,?_⟩
    have less := span_succ b low more
    change span b (position + 1) + size < b.bufSize
    change span b position + size < b.bufSize at room
    omega

omit h in
/-- The output scan finds a run of literal bytes. -/
theorem literal {count : Nat} {next : Mode} (h : Holds int whole (seek b position) 0 m toks)
    (order : position + count ≤ b.inp ∨ (b.inp < position ∧ position + count ≤ b.bufSize))
    (last : after int m (slice b.buf b.bufSize position count) = next)
    (out : tokens int m (slice b.buf b.bufSize position count) =
      (slice b.buf b.bufSize position count).map .byte) :
    Holds int whole (place (setOut b next) position (position + count)) count next toks := by
  have inside := h.inside
  have run := ahead_run b position count order
  change ahead (seek b position) (position + 0) = _ at run
  refine ⟨h.large,inside,order,.inl rfl,rfl,?_,?_,?_,?_,h.posted⟩
  · rw [← last]
    exact after_valid int m _ h.valid
  · have inp := h.inpFlags
    change _ = flags (after int m (ahead (seek b position) (position + 0))) at inp
    rw [run,after_append,last] at inp
    exact inp
  · have toks := h.toks
    change _ ++ tokens int m (ahead (seek b position) (position + 0)) = _ at toks
    rw [run,tokens_append,last,out] at toks
    exact toks
  · obtain ⟨front,all,mode⟩ := h.scan
    change front ++ ahead (seek b position) (position + 0) = whole at all
    refine ⟨front ++ slice b.buf b.bufSize position count,?_,by rw [after_append,mode,last]⟩
    rw [run] at all
    rw [← all,List.append_assoc]
    rfl

/-- A read fills free space after the last received byte. -/
theorem arrive {size : Nat} (bytes : List UInt8)
    (pending : b.readPending = some (position,size)) (fits : bytes.length ≤ size) :
    Holds int (whole ++ bytes)
      (setInp { b with
          buf := store b.buf position bytes
          inp := wrap b (position + bytes.length)
          readPending := none }
        (after int (modeOf b.inpFlags) bytes))
      lit m (toks ++ tokens int (modeOf b.inpFlags) bytes) := by
  obtain ⟨eof,rfl,_,within,room⟩ := h.posted position size pending
  obtain ⟨split,bound⟩ := h.span_bound
  have inside := h.inside
  have order := h.order
  have mode : modeOf b.inpFlags = after int m (ahead b (b.cur + lit)) := by
    rw [h.inpFlags,modeOf_flags _ (after_valid int m _ h.valid)]
  have last : (b.cur + span b b.cur) % b.bufSize = b.inp := by
    simp only [span]
    split
    · rw [Nat.add_sub_cancel' (by assumption),Nat.mod_eq_of_lt inside]
    · rw [show b.cur + (b.inp + b.bufSize - b.cur) = b.inp + b.bufSize by omega,Nat.add_mod_right,
        Nat.mod_eq_of_lt inside]
  have whole := slice_store_extend b.buf b.bufSize b.cur (span b b.cur) b.inp bytes last (by omega)
    (by omega) (by omega)
  generalize hn : setInp { b with
    buf := store b.buf b.inp bytes, inp := wrap b (b.inp + bytes.length), readPending := none }
      (after int (modeOf b.inpFlags) bytes) = next
  have size_ : next.bufSize = b.bufSize := by rw [← hn]; rfl
  have buf : next.buf = store b.buf b.inp bytes := by rw [← hn]; rfl
  have cur : next.cur = b.cur := by rw [← hn]; rfl
  have inp : next.inp = wrap b (b.inp + bytes.length) := by rw [← hn]; rfl
  have longer : ∀ p, span b p + bytes.length < b.bufSize → p ≤ b.bufSize →
      span next p = span b p + bytes.length := by
    intro p short low
    simp only [span,size_,inp,wrap] at short ⊢
    split at short <;> split <;> split <;> omega
  have short := longer b.cur (by omega) (by omega)
  -- the old bytes stay where they were, the new ones follow
  have old : slice next.buf next.bufSize next.cur lit = slice b.buf b.bufSize b.cur lit := by
    have front := congrArg (List.take lit) whole
    rw [List.take_append_of_le_length (by simp; omega),slice_take _ _ _ _ _ (by omega),
      slice_take _ _ _ _ _ (by omega)] at front
    rw [buf,size_,cur]
    exact front
  have new : ahead next (next.cur + lit) = ahead b (b.cur + lit) ++ bytes := by
    have back := congrArg (List.drop lit) whole
    rw [List.drop_append_of_le_length (by simp; omega),slice_drop _ _ _ _ _ (by omega),
      slice_drop _ _ _ _ _ (by omega)] at back
    have rest := longer (b.cur + lit) (by omega) (by omega)
    simp only [ahead,cur,buf,size_,rest]
    rwa [show span b b.cur + bytes.length - lit = span b (b.cur + lit) + bytes.length by omega,
      show span b b.cur - lit = span b (b.cur + lit) by omega] at back
  constructor
  case large => rw [size_]; exact h.large
  case inside =>
    simp only [size_,inp,wrap]
    split <;> omega
  case order =>
    simp only [size_,inp,cur,wrap]
    simp only [span] at room
    split at room <;> split <;> omega
  case settled => rw [← hn]; exact h.settled
  case outFlags => rw [← hn]; exact h.outFlags
  case valid => exact h.valid
  case inpFlags =>
    rw [new,after_append,← mode,← hn]
    rfl
  case toks => rw [old,new,tokens_append,← mode,← List.append_assoc,h.toks]
  case scan =>
    obtain ⟨front,all,state⟩ := h.scan
    exact ⟨front,by rw [new,← all,List.append_assoc],state⟩
  case posted =>
    intro position size pending
    rw [← hn] at pending
    cases pending

/-- A full buffer keeps its contents when it grows. -/
theorem grow (full : span b b.cur + 1 = b.bufSize)
    (low : b.cur < b.bufSize) (idle : b.readPending = none) :
    Holds int whole (InputBuf.grow b) lit m toks := by
  obtain ⟨split,_⟩ := h.span_bound
  have inside := h.inside
  have order := h.order
  have moved : ∀ i, i < b.bufSize → (InputBuf.grow b).buf i = b.buf ((b.cur + i) % b.bufSize) := by
    intro i small
    simp only [InputBuf.grow]
    split
    · rw [Nat.mod_eq_of_lt (by omega)]
    · rw [Nat.mod_eq_sub_mod (by omega),Nat.mod_eq_of_lt (by omega)]
      congr 1
      omega
  have same : ∀ start count, start + count < b.bufSize →
      slice (InputBuf.grow b).buf (InputBuf.grow b).bufSize start count =
        slice b.buf b.bufSize (b.cur + start) count := by
    intro start count short
    apply List.map_congr_left
    intro i member
    have small := List.mem_range.mp member
    have wide : start + i < (InputBuf.grow b).bufSize := by
      simp only [InputBuf.grow]
      omega
    simp only [Nat.mod_eq_of_lt wide,moved (start + i) (by omega),Nat.add_assoc]
  have rest : span (InputBuf.grow b) lit = span b (b.cur + lit) := by
    have value : span b (b.cur + lit) = b.bufSize - 1 - lit := by omega
    have before : lit ≤ b.bufSize - 1 := by omega
    rw [value]
    exact if_pos before
  have ahead_same : ahead (InputBuf.grow b) (0 + lit) = ahead b (b.cur + lit) := by
    simp only [ahead,Nat.zero_add,rest]
    exact same lit _ (by omega)
  constructor
  case large => simp only [InputBuf.grow]; have := h.large; omega
  case inside => simp only [InputBuf.grow]; have := h.large; omega
  case order => simp only [InputBuf.grow]; omega
  case settled =>
    have settled := h.settled
    simp only [InputBuf.grow]
    omega
  case outFlags => exact h.outFlags
  case valid => exact h.valid
  case inpFlags =>
    change _ = flags (after int m (ahead (InputBuf.grow b) (0 + lit)))
    rw [ahead_same]
    exact h.inpFlags
  case toks =>
    change (slice _ _ 0 lit).map _ ++ tokens int m (ahead (InputBuf.grow b) (0 + lit)) = _
    rw [ahead_same,same 0 lit (by omega)]
    exact h.toks
  case scan =>
    change ∃ front, front ++ ahead (InputBuf.grow b) (0 + lit) = whole ∧ _
    rw [ahead_same]
    exact h.scan
  case posted =>
    intro position size pending
    rw [show (InputBuf.grow b).readPending = b.readPending from rfl,idle] at pending
    cases pending

end

end Holds

end Tcf.InputBuf
