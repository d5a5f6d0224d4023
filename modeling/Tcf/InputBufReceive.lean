import Tcf.InputBufScan

/-! Receiving: free space, the next posted read, growth, and `ibuf_read_done` as a whole. -/
namespace Tcf.InputBuf

open Framing Circular

/-- What `ibuf_free_size` leaves of the pointers. -/
def rewind (b : InputBuf) : InputBuf := if b.eof = false ∧ b.cur = b.bufSize then seek b 0 else b

def freeBytes (b : InputBuf) : Nat :=
  if b.eof then 0
  else if (rewind b).cur ≤ b.inp then
    if (rewind b).cur = 0 then b.bufSize - b.inp - 1 else b.bufSize - b.inp
  else (rewind b).cur - b.inp - 1

/-- What `ibuf_trigger_read` does when it returns. -/
def poll (b : InputBuf) : InputBuf :=
  if 0 < freeBytes b then tcpPostRead (rewind b) b.inp (freeBytes b) else rewind b

theorem freeBytes_open {b : InputBuf} (more : 0 < freeBytes b) : b.eof = false := by
  cases eof : b.eof with
  | false => rfl
  | true => simp [freeBytes,eof] at more

@[simp] theorem rewind_counter (b : InputBuf) : (rewind b).counter = b.counter := by
  unfold rewind
  split <;> rfl

@[simp] theorem rewind_readPending (b : InputBuf) : (rewind b).readPending = b.readPending := by
  unfold rewind
  split <;> rfl

@[simp] theorem rewind_inp (b : InputBuf) : (rewind b).inp = b.inp := by
  unfold rewind
  split <;> rfl

@[simp] theorem rewind_bufSize (b : InputBuf) : (rewind b).bufSize = b.bufSize := by
  unfold rewind
  split <;> rfl

@[simp] theorem poll_counter (b : InputBuf) : (poll b).counter = b.counter := by
  unfold poll tcpPostRead
  split
  · split
    · exact rewind_counter b
    · exact rewind_counter b
  · exact rewind_counter b

/-- Polling moves only a pointer at the end of the buffer. -/
theorem poll_inner {b : InputBuf} (low : b.cur < b.bufSize) : (poll b).cur = b.cur ∧ (poll b).inp = b.inp := by
  have same : rewind b = b := if_neg (by omega)
  unfold poll tcpPostRead
  rw [same]
  split
  · split <;> exact ⟨rfl,rfl⟩
  · exact ⟨rfl,rfl⟩

namespace Holds

variable {int : IntShift} {whole : List UInt8} {b : InputBuf} {lit : Nat} {m : Mode} {toks : List Token}

section

variable (h : Holds int whole b lit m toks)

include h

theorem edge (last : b.cur = b.bufSize) : lit = 0 ∧ b.cur = b.stop := by
  have inside := h.inside
  have order := h.order
  have settled := h.settled
  omega

theorem rewind : Holds int whole (rewind b) lit m toks := by
  unfold InputBuf.rewind
  split
  · rename_i last
    obtain ⟨rfl,moved⟩ := h.reset last.2
    exact moved
  · exact h

theorem rewind_span :
    span (InputBuf.rewind b) (InputBuf.rewind b).cur = span b b.cur := by
  unfold InputBuf.rewind
  split
  · rename_i last
    rw [last.2,span_wrap b h.inside]
    rfl
  · rfl

theorem rewind_stop (ready : b.stop = b.cur + lit) :
    (InputBuf.rewind b).stop = (InputBuf.rewind b).cur + lit := by
  unfold InputBuf.rewind
  split
  · rename_i last
    obtain ⟨rfl,_⟩ := h.reset last.2
    rfl
  · exact ready

theorem rewind_low (open_ : b.eof = false) :
    (InputBuf.rewind b).cur < b.bufSize := by
  have inside := h.inside
  have order := h.order
  unfold InputBuf.rewind
  split
  · exact Nat.lt_of_le_of_lt (Nat.zero_le _) inside
  · rename_i inner
    simp only [open_,true_and] at inner
    omega

/-- Free space is contiguous, one cell stays empty, and none is left only in a full buffer. -/
theorem freeBytes_spec (open_ : b.eof = false) :
    b.inp + freeBytes b ≤ b.bufSize ∧ span b b.cur + freeBytes b < b.bufSize ∧
      (freeBytes b = 0 → span b b.cur + 1 = b.bufSize) := by
  have inside := h.inside
  have low := h.rewind_low open_
  rw [← h.rewind_span]
  simp only [freeBytes,open_,Bool.false_eq_true,if_false,span,rewind_inp,rewind_bufSize]
  split
  · split <;> omega
  · omega

theorem ibufFreeSize_eq :
    ibufFreeSize b = .ok (InputBuf.rewind b,freeBytes b) := by
  unfold ibufFreeSize freeBytes
  by_cases eof : b.eof = true
  · rw [if_pos eof,if_pos eof,InputBuf.rewind,if_neg (by simp [eof])]
    rfl
  have open_ : b.eof = false := by simpa using eof
  have inside := h.inside
  rw [if_neg eof,if_neg eof]
  by_cases last : b.cur = b.bufSize
  · have moved : InputBuf.rewind b = seek b 0 := if_pos ⟨open_,last⟩
    simp only [if_pos last,require_true (h.edge last).2,Code.ok_bind,Code.pure_eq]
    rw [require_true inside,moved]
    rfl
  · have same : InputBuf.rewind b = b := if_neg (fun both => last both.2)
    simp only [if_neg last,Code.ok_bind,Code.pure_eq]
    rw [require_true inside,same]
    simp only [Code.ok_bind]
    split <;> rfl

theorem ibufTriggerRead_eq : ibufTriggerRead b = .ok (InputBuf.poll b) := by
  unfold ibufTriggerRead InputBuf.poll
  simp only [h.ibufFreeSize_eq,Code.ok_bind,gt_iff_lt]
  by_cases more : 0 < freeBytes b
  · have open_ := freeBytes_open more
    have fits := (h.freeBytes_spec open_).1
    rw [if_pos more,if_pos more,require_true (by simpa using fits),rewind_inp]
    rfl
  · rw [if_neg more,if_neg more]
    rfl

theorem poll : Holds int whole (InputBuf.poll b) lit m toks := by
  have moved := h.rewind
  unfold InputBuf.poll
  split
  · rename_i more
    have open_ := freeBytes_open more
    obtain ⟨fits,room,_⟩ := h.freeBytes_spec open_
    have eof : (InputBuf.rewind b).eof = false :=
      (congrArg Counter.eof (rewind_counter b)).trans open_
    unfold tcpPostRead
    split
    · exact moved
    · refine moved.transport rfl rfl rfl rfl rfl rfl rfl ?_
      intro position size pending
      obtain ⟨rfl,rfl⟩ := Prod.mk.inj (Option.some.inj pending)
      refine ⟨eof,(rewind_inp b).symm,more,(rewind_bufSize b).symm ▸ fits,?_⟩
      have spans := h.rewind_span
      change span (InputBuf.rewind b) (InputBuf.rewind b).cur + _ < (InputBuf.rewind b).bufSize
      rw [spans,rewind_bufSize]
      exact room
  · exact moved

theorem poll_stop (ready : b.stop = b.cur + lit) :
    (InputBuf.poll b).stop = (InputBuf.poll b).cur + lit := by
  have moved := h.rewind_stop ready
  unfold InputBuf.poll tcpPostRead
  split
  · split
    · exact moved
    · exact moved
  · exact moved

/-- With a free cell there is always a posted read. -/
theorem poll_posted (open_ : b.eof = false)
    (room : span b b.cur + 1 < b.bufSize) : (InputBuf.poll b).readPending.isSome := by
  have more : 0 < freeBytes b := by
    have := (h.freeBytes_spec open_).2.2
    omega
  unfold InputBuf.poll tcpPostRead
  rw [if_pos more]
  split
  · assumption
  · rfl

/-- The buffer may double before the next read is posted. -/
theorem growIfFull (idle : b.readPending = none) (w : Build) :
    ∃ next, growIfFull w b = .ok next ∧ Holds int whole next lit m toks ∧ next.counter = b.counter ∧
      next.readPending = none ∧ (b.stop = b.cur + lit → next.stop = next.cur + lit) := by
  unfold InputBuf.growIfFull
  by_cases queue : w.inputQueue = true ∧ b.eof = false
  · simp only [if_pos queue,h.ibufFreeSize_eq,Code.ok_bind]
    by_cases full : freeBytes b = 0 ∧ (InputBuf.rewind b).bufSize < 0x1000000
    · obtain ⟨_,_,tight⟩ := h.freeBytes_spec queue.2
      have spans := h.rewind_span
      have low := h.rewind_low queue.2
      refine ⟨InputBuf.grow (InputBuf.rewind b),by rw [if_pos full]; rfl,
        h.rewind.grow ?_ ?_ ?_,rewind_counter b,?_,?_⟩
      · rw [spans,rewind_bufSize]
        exact tight full.1
      · simpa using low
      · simpa using idle
      · exact (rewind_readPending b).trans idle
      · intro ready
        have := h.rewind_stop ready
        simp only [InputBuf.grow]
        omega
    · refine ⟨InputBuf.rewind b,by rw [if_neg full]; rfl,h.rewind,rewind_counter b,?_,h.rewind_stop⟩
      simpa using idle
  · exact ⟨b,by rw [if_neg queue]; rfl,h,rfl,idle,id⟩

end

end Holds

variable (w : Build) {whole : List UInt8} {b : InputBuf} {lit : Nat} {m : Mode} {toks : List Token}

/-- What the scan of a completed read starts from. -/
theorem received_scan (h : Holds w.int whole b lit m toks) {position size : Nat} {bytes : List UInt8}
    (pending : b.readPending = some (position,size)) (fits : bytes.length ≤ size) :
    slice (received b b.inp bytes).buf (received b b.inp bytes).bufSize b.inp bytes.length = bytes ∧
      (modeOf b.inpFlags).Valid ∧ inpFlags (received b b.inp bytes) = flags (modeOf b.inpFlags) := by
  obtain ⟨-,rfl,_,within,_⟩ := h.posted position size pending
  have valid := after_valid w.int m (ahead b (b.cur + lit)) h.valid
  have mode : modeOf b.inpFlags = after w.int m (ahead b (b.cur + lit)) := by
    rw [h.inpFlags,modeOf_flags _ valid]
  refine ⟨slice_store_same b.buf b.bufSize b.inp bytes (by omega),mode ▸ valid,?_⟩
  change b.inpFlags = _
  rw [mode,h.inpFlags]

/-- A completed read that returns has accepted all its tokens. -/
theorem ibufReadDone_accepts (h : Holds w.int whole b lit m toks) {position size : Nat} {bytes : List UInt8}
    (pending : b.readPending = some (position,size)) (fits : bytes.length ≤ size) (some_ : bytes ≠ [])
    {next : InputBuf} (run : ibufReadDone w (received b position bytes) bytes.length = .ok next) :
    b.counter.AcceptsAll (tokens w.int (modeOf b.inpFlags) bytes) := by
  obtain ⟨read,valid,state⟩ := received_scan w h pending fits
  obtain ⟨open_,rfl,_,within,_⟩ := h.posted position size pending
  have positive : 0 < bytes.length := List.length_pos_iff.mpr some_
  unfold ibufReadDone at run
  rw [if_neg (by omega),require_true (show (received b b.inp bytes).eof = false from open_),
    Code.ok_bind] at run
  obtain ⟨_,loop,_⟩ := Code.bind_ok_iff.mp run
  have accepts := readDoneLoop_accepts w bytes.length (b := received b b.inp bytes) (Nat.le_refl _) h.inside
    (show b.inp + bytes.length ≤ b.bufSize by omega) state valid loop
  rw [read] at accepts
  exact accepts

/-- A completed read adds its tokens and counts them. A buffer that stays full without a
message starts a long one; otherwise the next read is posted. -/
theorem ibufReadDone_spec (h : Holds w.int whole b lit m toks) {position size : Nat} {bytes : List UInt8}
    (pending : b.readPending = some (position,size)) (fits : bytes.length ≤ size) (some_ : bytes ≠ [])
    (accepts : b.counter.AcceptsAll (tokens w.int (modeOf b.inpFlags) bytes)) :
    ∃ next, ibufReadDone w (received b position bytes) bytes.length = .ok next ∧
      Holds w.int (whole ++ bytes) next lit m (toks ++ tokens w.int (modeOf b.inpFlags) bytes) ∧
      (next.counter = b.counter.arriveAll (tokens w.int (modeOf b.inpFlags) bytes) ∨
        ((b.counter.arriveAll (tokens w.int (modeOf b.inpFlags) bytes)).messageCount = 0 ∧
          next.counter = { b.counter.arriveAll (tokens w.int (modeOf b.inpFlags) bytes) with
            longMsg := true }.newMessage ∧
          (next.eof = false → span next next.cur + 1 = next.bufSize))) ∧
      (b.stop = b.cur + lit → next.stop = next.cur + lit) ∧
      (next.eof = false → next.readPending = none → 0 < next.messageCount) := by
  obtain ⟨read,valid,state⟩ := received_scan w h pending fits
  obtain ⟨open_,rfl,_,within,room⟩ := h.posted position size pending
  have inside := h.inside
  have positive : 0 < bytes.length := List.length_pos_iff.mpr some_
  have loop := readDoneLoop_eq w bytes.length (b := received b b.inp bytes) (Nat.le_refl _) inside
    (show b.inp + bytes.length ≤ b.bufSize by omega) state valid (by rw [read]; exact accepts)
  rw [read] at loop
  generalize hc : b.counter.arriveAll (tokens w.int (modeOf b.inpFlags) bytes) = c
  have scanned : Holds w.int (whole ++ bytes)
      { ((received b b.inp bytes).setCounter c).setInp (after w.int (modeOf b.inpFlags) bytes) with
        inp := wrap (received b b.inp bytes) (b.inp + bytes.length) }
      lit m (toks ++ tokens w.int (modeOf b.inpFlags) bytes) := by
    refine (h.arrive bytes pending fits).transport rfl rfl rfl rfl rfl rfl rfl ?_
    intro position size pending
    cases pending
  obtain ⟨grown,grow,held,counted,idle,ready⟩ := scanned.growIfFull rfl w
  have run : ibufReadDone w (received b b.inp bytes) bytes.length =
      (ibufFreeSize grown >>= fun polled =>
        if polled.2 > 0 then ibufTriggerRead polled.1
        else if polled.1.messageCount = 0 then ibufNewMessage { polled.1 with longMsg := true }
        else pure polled.1) := by
    unfold ibufReadDone
    rw [if_neg (by omega),require_true (show (received b b.inp bytes).eof = false from open_)]
    rw [Code.ok_bind,show (received b b.inp bytes).inp = b.inp from rfl,loop]
    change (InputBuf.growIfFull w _ >>= _) = _
    rw [show b.counter = (received b b.inp bytes).counter from rfl] at hc
    rw [hc,grow]
    rfl
  rw [run,held.ibufFreeSize_eq,Code.ok_bind]
  dsimp only
  have moved := held.rewind
  have stop : b.stop = b.cur + lit → (rewind grown).stop = (rewind grown).cur + lit :=
    fun same => held.rewind_stop (ready same)
  have counter : (rewind grown).counter = c := (rewind_counter grown).trans counted
  by_cases more : freeBytes grown > 0
  · rw [if_pos more,moved.ibufTriggerRead_eq]
    refine ⟨_,rfl,moved.poll,.inl ((poll_counter _).trans counter),fun same => moved.poll_stop (stop same),?_⟩
    intro eof none_
    have room_ := (held.freeBytes_spec (freeBytes_open more)).2.1
    have posted := moved.poll_posted (b := rewind grown)
      ((congrArg Counter.eof (poll_counter (rewind grown))).symm.trans eof)
      (by rw [held.rewind_span,rewind_bufSize]; omega)
    simp [none_] at posted
  · rw [if_neg more]
    by_cases empty : (rewind grown).messageCount = 0
    · have count : c.messageCount = 0 := (congrArg Counter.messageCount counter).symm.trans empty
      rw [if_pos empty,ibufNewMessage_eq]
      refine ⟨_,rfl,moved.transport rfl rfl rfl rfl rfl rfl rfl ?_,.inr ⟨count,?_,?_⟩,stop,?_⟩
      · intro position size pending
        have none_ := (rewind_readPending grown).trans idle
        exact absurd (none_.symm.trans pending) (by simp)
      · rw [← counter]
        rfl
      · intro open_
        have open' : grown.eof = false := (congrArg Counter.eof (rewind_counter grown)).symm.trans open_
        have tight := (held.freeBytes_spec open').2.2 (Nat.eq_zero_of_not_pos more)
        change span (rewind grown) (rewind grown).cur + 1 = (rewind grown).bufSize
        rw [held.rewind_span,rewind_bufSize]
        exact tight
      · exact fun _ _ => Nat.succ_pos _
    · rw [if_neg empty]
      exact ⟨_,rfl,moved,.inl counter,stop,fun _ _ => Nat.pos_of_ne_zero empty⟩

end Tcf.InputBuf
