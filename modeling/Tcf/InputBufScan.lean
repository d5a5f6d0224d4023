import Tcf.InputBufContents

/-! The scan of received bytes: what `ibuf_read_done` does to the count of messages. -/
namespace Tcf.InputBuf

open Framing Circular

/-- The fields that count messages. -/
structure Counter where
  eof : Bool
  longMsg : Bool
  messageCount : Nat
  handlingMsg : HandleMsg
  deriving DecidableEq, Repr

namespace Counter

def newMessage (c : Counter) : Counter :=
  { c with
    messageCount := c.messageCount + 1
    handlingMsg := if c.handlingMsg = .idle then .triggered else c.handlingMsg }

def endOfStream (c : Counter) : Counter := if c.eof then c else { c with eof := true }.newMessage

/-- What a received token does to the count. An escape without meaning ends the stream. -/
def arrive (c : Counter) : Token → Counter
  | .byte _ => c
  | .eom => if c.longMsg then { c with longMsg := false } else c.newMessage
  | .eos | .bad => c.endOfStream

/-- The assertion made at the end of a long message. -/
def Accepts (c : Counter) (t : Token) : Prop := t = .eom → c.longMsg = true → c.messageCount = 1

def arriveAll (c : Counter) (toks : List Token) : Counter := toks.foldl arrive c

def AcceptsAll : Counter → List Token → Prop
  | _, [] => True
  | c, t :: rest => c.Accepts t ∧ AcceptsAll (c.arrive t) rest

@[simp] theorem arriveAll_nil (c : Counter) : c.arriveAll [] = c := rfl

@[simp] theorem arriveAll_cons (c : Counter) (t : Token) (rest : List Token) :
    c.arriveAll (t :: rest) = (c.arrive t).arriveAll rest := rfl

theorem arriveAll_append (c : Counter) (first second : List Token) :
    c.arriveAll (first ++ second) = (c.arriveAll first).arriveAll second := List.foldl_append ..

theorem acceptsAll_append (c : Counter) (first second : List Token) :
    c.AcceptsAll (first ++ second) ↔ c.AcceptsAll first ∧ (c.arriveAll first).AcceptsAll second := by
  induction first generalizing c with
  | nil => simp [AcceptsAll]
  | cons t rest ih => simp [AcceptsAll,ih,and_assoc]

@[simp] theorem arriveAll_bytes (c : Counter) (bytes : List UInt8) :
    c.arriveAll (bytes.map .byte) = c := by
  induction bytes with
  | nil => rfl
  | cons ch rest ih => exact ih

theorem acceptsAll_bytes (c : Counter) (bytes : List UInt8) : c.AcceptsAll (bytes.map .byte) := by
  induction bytes with
  | nil => trivial
  | cons ch rest ih => exact ⟨by simp [Accepts],ih⟩

end Counter

def counter (b : InputBuf) : Counter := ⟨b.eof,b.longMsg,b.messageCount,b.handlingMsg⟩

def setCounter (b : InputBuf) (c : Counter) : InputBuf :=
  { b with eof := c.eof, longMsg := c.longMsg, messageCount := c.messageCount, handlingMsg := c.handlingMsg }

@[simp] theorem counter_setCounter (b : InputBuf) (c : Counter) : (b.setCounter c).counter = c := rfl
@[simp] theorem setCounter_counter (b : InputBuf) : b.setCounter b.counter = b := rfl
@[simp] theorem counter_setInp (b : InputBuf) (m : Mode) : (b.setInp m).counter = b.counter := rfl

variable {b : InputBuf} {m : Mode}

theorem setInp_self (h : b.inpFlags = flags m) : b.setInp m = b := by
  unfold setInp
  rw [← h]
  rfl

theorem flags_counting (remaining : Nat) : flags (counting remaining) = (false,0,remaining) := by
  by_cases h : remaining = 0 <;> simp [counting,h,flags]

theorem tcpTriggerMessage_eq (some_ : 0 < b.messageCount) :
    tcpTriggerMessage b = .ok { b with
      handlingMsg := if b.handlingMsg = .idle then .triggered else b.handlingMsg } := by
  simp only [tcpTriggerMessage,require_true some_,Code.ok_bind]
  split <;> rfl

theorem ibufNewMessage_eq (b : InputBuf) :
    ibufNewMessage b = .ok (b.setCounter b.counter.newMessage) :=
  tcpTriggerMessage_eq (Nat.succ_pos _)

theorem ibufEof_eq (b : InputBuf) : ibufEof b = .ok (b.setCounter b.counter.endOfStream) := by
  by_cases seen : b.eof = true
  · have seen' : b.counter.eof = true := seen
    rw [ibufEof,if_pos seen,Counter.endOfStream,if_pos seen']
    rfl
  · have seen' : ¬b.counter.eof = true := seen
    rw [ibufEof,if_neg seen,Counter.endOfStream,if_neg seen',ibufNewMessage_eq]
    rfl

/-- An update that leaves the scan in a mode is that mode set. -/
theorem eq_setInp {next : InputBuf} (state : next.inpFlags = flags m)
    (same : next.setInp m = b.setInp m) : next = b.setInp m := (setInp_self state).symm.trans same

variable (w : Build)

variable {inp len : Nat}

theorem readDoneStep_plain (state : b.inpFlags = flags .plain) :
    readDoneStep w b inp len = .ok
      (b.setInp (after w.int .plain [b.buf inp]),wrap b (inp + 1),len - 1) := by
  obtain ⟨esc,count,size⟩ : b.inpEsc = false ∧ b.inpSizeMode = 0 ∧ b.inpDataSize = 0 := by
    simpa [inpFlags,flags] using state
  by_cases stuff : b.buf inp = ESC
  · have step_ : readDoneStep w b inp len = .ok ({ b with inpEsc := true },wrap b (inp + 1),len - 1) := by
      simp [readDoneStep,esc,count,size,stuff]
    have mode : after w.int .plain [b.buf inp] = .escaped := by simp [after_cons,step,stuff]
    have state' : inpFlags { b with inpEsc := true } = flags .escaped := by
      simp only [inpFlags,count,size]
      rfl
    have next := eq_setInp (b := b) state' rfl
    rw [step_,mode,next]
  · simp [readDoneStep,esc,count,size,stuff,after_cons,step,setInp_self state]

/-- The byte that ends an escape is counted as its token. -/
theorem readEscape_eq {ch : UInt8} (state : b.inpFlags = flags .plain)
    (accepts : b.counter.AcceptsAll (tokens w.int .escaped [ch])) :
    readEscape b ch = .ok ((b.setCounter (b.counter.arriveAll (tokens w.int .escaped [ch]))).setInp
      (after w.int .escaped [ch])) := by
  have plain := setInp_self state
  simp only [after_cons,tokens_cons,step,after_nil,tokens_nil,List.append_nil] at accepts ⊢
  unfold readEscape
  split
  case h_1 => exact congrArg Except.ok plain.symm
  case h_2 =>
    have one := accepts.1 rfl
    change _ = Except.ok ((b.setInp .plain).setCounter (b.counter.arrive .eom))
    rw [plain]
    by_cases long : b.longMsg = true
    · have long' : b.counter.longMsg = true := long
      have one' : b.messageCount = 1 := one long
      rw [if_pos long,require_true one',Counter.arrive,if_pos long']
      rfl
    · have long' : ¬b.counter.longMsg = true := long
      rw [if_neg long,ibufNewMessage_eq,Counter.arrive,if_neg long']
  case h_3 =>
    change _ = Except.ok ((b.setInp .plain).setCounter (b.counter.arrive .eos))
    rw [plain,ibufEof_eq]
    rfl
  case h_4 =>
    refine congrArg Except.ok (eq_setInp ?_ rfl)
    have esc := congrArg Prod.fst state
    change (b.inpEsc,1,0) = (false,1,0)
    rw [show b.inpEsc = false from esc]
  case h_5 zero one two three =>
    simp only [escapeStep]
    change _ = Except.ok ((b.setInp .plain).setCounter (b.counter.arrive .bad))
    rw [plain,ibufEof_eq]
    rfl

/-- What the scan lets pass was accepted. -/
theorem readEscape_accepts {next : InputBuf} {ch : UInt8} (run : readEscape b ch = .ok next) :
    b.counter.AcceptsAll (tokens w.int .escaped [ch]) := by
  simp only [tokens_cons,step,tokens_nil,List.append_nil]
  unfold readEscape at run
  split at run
  case h_2 =>
    refine ⟨fun _ long => ?_,trivial⟩
    rw [if_pos (show b.longMsg = true from long)] at run
    exact (Code.require_bind_ok.mp run).1
  all_goals simp [escapeStep,Counter.AcceptsAll,Counter.Accepts]

theorem readDoneStep_escaped (state : b.inpFlags = flags .escaped)
    (accepts : b.counter.AcceptsAll (tokens w.int .escaped [b.buf inp])) :
    readDoneStep w b inp len = .ok
      ((b.setCounter (b.counter.arriveAll (tokens w.int .escaped [b.buf inp]))).setInp
        (after w.int .escaped [b.buf inp]),wrap b (inp + 1),len - 1) := by
  obtain ⟨esc,count,size⟩ : b.inpEsc = true ∧ b.inpSizeMode = 0 ∧ b.inpDataSize = 0 := by
    simpa [inpFlags,flags] using state
  have plain : inpFlags { b with inpEsc := false } = flags .plain := by
    simp only [inpFlags,count,size]
    rfl
  unfold readDoneStep
  rw [if_neg (by simp [count]),if_neg (by simp [size])]
  dsimp only
  rw [if_pos esc,readEscape_eq w plain accepts]
  rfl

theorem readDoneStep_size {groups acc : Nat}
    (state : b.inpFlags = flags (.size groups acc)) (valid : 0 < groups) :
    readDoneStep w b inp len = .ok
      (b.setInp (after w.int (.size groups acc) [b.buf inp]),wrap b (inp + 1),len - 1) := by
  obtain ⟨esc,count,size⟩ : b.inpEsc = false ∧ b.inpSizeMode = groups ∧ b.inpDataSize = acc := by
    simpa [inpFlags,flags] using state
  unfold readDoneStep
  rw [if_pos (by omega),require_true esc]
  simp only [Code.ok_bind,after_cons,step,after_nil,count,size]
  by_cases last : b.buf inp &&& 0x80 = 0
  · simp only [if_pos last,setInp,flags_counting,esc]
    rfl
  · simp only [if_neg last,setInp,flags,esc]
    rfl

/-- Bytes of a block are skipped at once, as far as they have arrived. -/
theorem readDoneStep_data (inp len : Nat) {remaining : Nat} (bytes : List UInt8)
    (state : b.inpFlags = flags (.data remaining)) (valid : 0 < remaining)
    (length : bytes.length = min remaining len) :
    readDoneStep w b inp len = .ok (b.setInp (after w.int (.data remaining) bytes),
      wrap b (inp + bytes.length),len - bytes.length) := by
  obtain ⟨esc,count,size⟩ : b.inpEsc = false ∧ b.inpSizeMode = 0 ∧ b.inpDataSize = remaining := by
    simpa [inpFlags,flags] using state
  rw [(block_run w.int bytes remaining valid (by omega)).1]
  have next : b.setInp (counting (remaining - bytes.length)) =
      { b with inpDataSize := remaining - bytes.length } := by
    symm
    refine eq_setInp ?_ rfl
    rw [flags_counting]
    simp only [inpFlags,esc,count]
  rw [next]
  unfold readDoneStep
  rw [if_neg (by simp [count]),if_pos (by omega),require_true esc]
  simp only [Code.ok_bind,size]
  by_cases whole : remaining < len
  · rw [if_pos whole,show bytes.length = remaining by omega,Nat.sub_self]
    rfl
  · rw [if_neg whole,show bytes.length = len by omega,Nat.sub_self]
    rfl

/-- One pass of the scan decodes some bytes, when they are accepted. -/
theorem readDoneStep_eq (positive : 0 < len)
    (fits : inp + len ≤ b.bufSize) (state : b.inpFlags = flags m) (valid : m.Valid) :
    ∃ k, 0 < k ∧ k ≤ len ∧
      (∀ r, readDoneStep w b inp len = .ok r → b.counter.AcceptsAll (tokens w.int m (slice b.buf b.bufSize inp k))) ∧
      (b.counter.AcceptsAll (tokens w.int m (slice b.buf b.bufSize inp k)) → readDoneStep w b inp len = .ok
        ((b.setCounter (b.counter.arriveAll (tokens w.int m (slice b.buf b.bufSize inp k)))).setInp
          (after w.int m (slice b.buf b.bufSize inp k)),wrap b (inp + k),len - k)) := by
  have single : slice b.buf b.bufSize inp 1 = [b.buf inp] := by
    rw [slice_succ,slice_zero,Nat.mod_eq_of_lt (by omega)]
  cases m with
  | plain =>
    have silent : b.counter.arriveAll (tokens w.int .plain [b.buf inp]) = b.counter := by
      by_cases stuff : b.buf inp = ESC <;> simp [tokens_cons,step,stuff,Counter.arrive]
    refine ⟨1,by omega,positive,fun _ _ => ?_,fun _ => ?_⟩
    · rw [single]
      by_cases stuff : b.buf inp = ESC <;> simp [tokens_cons,step,stuff,Counter.AcceptsAll,Counter.Accepts]
    · rw [single,silent]
      exact readDoneStep_plain w state
  | escaped =>
    refine ⟨1,by omega,positive,fun r run => ?_,fun accepts => ?_⟩
    · obtain ⟨esc,count,size⟩ : b.inpEsc = true ∧ b.inpSizeMode = 0 ∧ b.inpDataSize = 0 := by
        simpa [inpFlags,flags] using state
      unfold readDoneStep at run
      rw [if_neg (by simp [count]),if_neg (by simp [size])] at run
      dsimp only at run
      rw [if_pos esc] at run
      obtain ⟨next,passed,_⟩ := Code.bind_ok_iff.mp run
      have accepted := readEscape_accepts w passed
      rw [single]
      exact accepted
    · rw [single] at accepts ⊢
      exact readDoneStep_escaped w state accepts
  | size groups acc =>
    have silent : tokens w.int (.size groups acc) [b.buf inp] = [] := by
      simp only [tokens_cons,step]
      split <;> rfl
    refine ⟨1,by omega,positive,fun _ _ => ?_,fun _ => ?_⟩
    · rw [single,silent]
      trivial
    · rw [single,silent]
      exact readDoneStep_size w state valid
  | data remaining =>
    have some_ : 0 < remaining := valid
    have run := readDoneStep_data w inp len
      (slice b.buf b.bufSize inp (min remaining len)) state valid (by simp)
    have silent := (block_run w.int (slice b.buf b.bufSize inp (min remaining len)) remaining some_
      (by rw [slice_length]; omega)).2
    refine ⟨min remaining len,by omega,by omega,fun _ _ => ?_,fun _ => ?_⟩
    · rw [silent]
      exact Counter.acceptsAll_bytes _ _
    · rw [silent,Counter.arriveAll_bytes]
      simpa using run

/-- The scan decodes all bytes received. -/
theorem readDoneLoop_eq (fuel : Nat) (enough : len ≤ fuel)
    (inside : inp < b.bufSize) (fits : inp + len ≤ b.bufSize) (state : b.inpFlags = flags m)
    (valid : m.Valid) (accepts : b.counter.AcceptsAll (tokens w.int m (slice b.buf b.bufSize inp len))) :
    readDoneLoop w fuel b inp len = .ok
      ((b.setCounter (b.counter.arriveAll (tokens w.int m (slice b.buf b.bufSize inp len)))).setInp
        (after w.int m (slice b.buf b.bufSize inp len)),wrap b (inp + len)) := by
  have stay : wrap b inp = inp := by
    rw [wrap,if_neg (by omega)]
  induction fuel generalizing b m inp len with
  | zero =>
    obtain rfl : len = 0 := by omega
    simp [readDoneLoop,setInp_self state,stay]
  | succ fuel ih =>
    by_cases done : len = 0
    · subst done
      simp [readDoneLoop,setInp_self state,stay]
    obtain ⟨k,positive,within,_,pass⟩ := readDoneStep_eq w (by omega) fits state valid
    have split : slice b.buf b.bufSize inp len = slice b.buf b.bufSize inp k ++
        slice b.buf b.bufSize (inp + k) (len - k) := by
      rw [← slice_append,Nat.add_sub_cancel' within]
    rw [split,tokens_append,Counter.acceptsAll_append] at accepts
    have pass := pass accepts.1
    simp only [readDoneLoop,if_neg done,pass,Code.ok_bind]
    rw [split,tokens_append,Counter.arriveAll_append,after_append]
    by_cases last : inp + k = b.bufSize
    · obtain rfl : k = len := by omega
      have none_ : ∀ b inp, readDoneLoop w fuel b inp 0 = .ok (b,inp) := by
        intro b inp
        cases fuel <;> rfl
      simp [none_]
    · have start : wrap b (inp + k) = inp + k := by
        rw [wrap,if_neg (by omega)]
      have rest := ih
        (b := (b.setCounter (b.counter.arriveAll (tokens w.int m (slice b.buf b.bufSize inp k)))).setInp
          (after w.int m (slice b.buf b.bufSize inp k)))
        (by omega : len - k ≤ fuel) (show inp + k < b.bufSize by omega)
        (show inp + k + (len - k) ≤ b.bufSize by omega) rfl (after_valid w.int m _ valid) accepts.2 start
      rw [show inp + k + (len - k) = inp + len by omega] at rest
      rw [start]
      exact rest

/-- A scan that returns has accepted everything. -/
theorem readDoneLoop_accepts (fuel : Nat) {r : InputBuf × Nat}
    (enough : len ≤ fuel) (inside : inp < b.bufSize) (fits : inp + len ≤ b.bufSize) (state : b.inpFlags = flags m)
    (valid : m.Valid) (run : readDoneLoop w fuel b inp len = .ok r) :
    b.counter.AcceptsAll (tokens w.int m (slice b.buf b.bufSize inp len)) := by
  induction fuel generalizing b m inp len with
  | zero =>
    obtain rfl : len = 0 := by omega
    exact trivial
  | succ fuel ih =>
    by_cases done : len = 0
    · subst done
      exact trivial
    obtain ⟨k,positive,within,accepted,pass⟩ := readDoneStep_eq w (by omega) fits state valid
    have split : slice b.buf b.bufSize inp len = slice b.buf b.bufSize inp k ++
        slice b.buf b.bufSize (inp + k) (len - k) := by
      rw [← slice_append,Nat.add_sub_cancel' within]
    simp only [readDoneLoop,if_neg done] at run
    obtain ⟨_,first,later⟩ := Code.bind_ok_iff.mp run
    have begins := accepted _ first
    rw [pass begins] at first
    cases first
    rw [split,tokens_append,Counter.acceptsAll_append]
    refine ⟨begins,?_⟩
    by_cases last : inp + k = b.bufSize
    · obtain rfl : k = len := by omega
      simp [Counter.AcceptsAll]
    · have start : wrap b (inp + k) = inp + k := by
        rw [wrap,if_neg (by omega)]
      rw [start] at later
      exact ih (b := (b.setCounter (b.counter.arriveAll (tokens w.int m (slice b.buf b.bufSize inp k)))).setInp
          (after w.int m (slice b.buf b.bufSize inp k)))
        (by omega : len - k ≤ fuel) (show inp + k < b.bufSize by omega)
        (show inp + k + (len - k) ≤ b.bufSize by omega) rfl (after_valid w.int m _ valid) later

end Tcf.InputBuf
