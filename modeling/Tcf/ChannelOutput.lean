import Tcf.Base.Process
import Tcf.Framing

/-! The output side of a TCP channel. A byte is written plain, escaped, or into an
open block whose length is patched when the block ends; which one depends on how
close the buffer is to its end. -/
namespace Tcf.ChannelOutput

open Framing

/-- OUTPUT_QUEUE_BUF_SIZE: 0x100 on VxWorks, 128 * MEM_USAGE_FACTOR elsewhere. A
block length takes at most three groups of seven bits. -/
structure BufSize where
  bytes : Nat
  room : 64 ≤ bytes
  fits : bytes ≤ 0x200000

def BufSize.small : BufSize := ⟨256,by decide,by decide⟩

/-- The output fields of `ChannelTCP`. `buf` holds the bytes of the current buffer
up to `out.cur`, `outBinBlock` is an offset in it, `flushed` the queued buffers. -/
structure Channel where
  supportsZeroCopy : Bool
  buf : List UInt8
  outBinBlock : Option Nat
  flushed : List (List UInt8)
  disconnected : Bool
  outErrno : Nat
  outEomCnt : Nat
  outFlushCnt : Nat
  deriving DecidableEq, Repr

variable (size : BufSize)

/-- `*out->cur++ = ch`; past the end it would overrun the buffer. -/
def put (c : Channel) (ch : UInt8) : Code Channel := do
  require (c.buf.length < size.bytes)
  pure { c with buf := c.buf ++ [ch] }

def tcpFlushWithFlags (c : Channel) : Code Channel := do
  require (c.outBinBlock = none)
  require (c.buf.length ≤ size.bytes)
  if c.buf = [] then pure c
  else if c.disconnected = false ∧ c.outErrno = 0 then
    pure { c with flushed := c.flushed ++ [c.buf], buf := [], outEomCnt := 0 }
  else pure { c with buf := [], outEomCnt := 0 }

/-- Bytes of a block header: ESC, 3 and room for the length. -/
def headerSize : Nat := if size.bytes > 0x4000 then 5 else 4

def tcpBinBlockStart (c : Channel) : Code Channel := do
  let c ← put size c ESC
  let c ← put size c 3
  let c ← if size.bytes > 0x4000 then put size c 0 else pure c
  let c ← put size c 0
  let c ← put size c 0
  pure { c with outBinBlock := some c.buf.length }

def tcpBinBlockEnd (c : Channel) (block : Nat) : Channel :=
  let len := c.buf.length - block
  let buf :=
    if len = 0 then c.buf.take (c.buf.length - headerSize size)
    else if size.bytes > 0x4000 then
      ((c.buf.set (block - 3) (lowBits len)).set (block - 2) (lowBits (len >>> 7))).set
        (block - 1) (UInt8.ofNat (len >>> 14))
    else (c.buf.set (block - 2) (lowBits len)).set (block - 1) (UInt8.ofNat (len >>> 7))
  { c with buf, outBinBlock := none }

def endBlock (c : Channel) : Channel :=
  match c.outBinBlock with
  | none => c
  | some block => tcpBinBlockEnd size c block

def flushIfFull (c : Channel) : Code Channel :=
  if c.buf.length = size.bytes then tcpFlushWithFlags size c else pure c

/-- The byte after ESC. -/
def escapeCode : Item → UInt8
  | .byte _ => 0
  | .eom => 1
  | .eos => 2

/-- ESC and its code may fall into different buffers. -/
def writeEscape (c : Channel) (item : Item) : Code Channel := do
  let c ← put size c ESC
  let c ← flushIfFull size c
  put size c (escapeCode item)

/-- An end of message posts a lazy flush, at most two of them at a time. -/
def countEom (c : Channel) : Item → Channel
  | .eom => { c with
      outEomCnt := c.outEomCnt + 1
      outFlushCnt := if c.outFlushCnt < 2 then c.outFlushCnt + 1 else c.outFlushCnt }
  | _ => c

def tcpWriteStream (c : Channel) (item : Item) : Code Channel := do
  if c.supportsZeroCopy = false ∨ c.buf.length ≥ size.bytes - 32 ∨ item.marker = true then
    let c ← flushIfFull size (endBlock size c)
    match item with
    | .byte ch => if ch = ESC then writeEscape size c item else put size c ch
    | marker => pure (countEom (← writeEscape size c marker) marker)
  else
    let c ← if c.outBinBlock = none then tcpBinBlockStart size c else pure c
    match item with
    | .byte ch => put size c ch
    | _ => pure c

/-- The macro `write_stream`: bytes above ESC go directly to a buffer with room. -/
def writeStream (c : Channel) (item : Item) : Code Channel :=
  match item with
  | .byte ch => if ch > ESC ∧ c.buf.length < size.bytes then put size c ch else tcpWriteStream size c item
  | _ => tcpWriteStream size c item

/-- One pass of the loop in `tcp_write_block_stream`; the rest of the source follows. -/
def tcpWriteBlockStep (c : Channel) (first : UInt8) (rest : List UInt8) : Code (Channel × List UInt8) := do
  let src := first :: rest
  let n := min (size.bytes - c.buf.length) src.length
  if n = 0 then pure (← tcpWriteStream size c (.byte first),rest)
  else if c.outBinBlock ≠ none then pure ({ c with buf := c.buf ++ src.take n },src.drop n)
  else if first ≠ ESC then
    let run := (src.take n).takeWhile (· ≠ ESC)
    pure ({ c with buf := c.buf ++ run },src.drop run.length)
  else pure (← tcpWriteStream size c (.byte first),rest)

def tcpWriteBlockLoop : Nat → Channel → List UInt8 → Code Channel
  | _, c, [] => pure c
  | 0, _, _ :: _ => .error .stuck
  | fuel + 1, c, first :: rest => do
    let (c,src) ← tcpWriteBlockStep size c first rest
    tcpWriteBlockLoop fuel c src

/-- Every pass of the loop takes at least one byte. -/
def tcpWriteBlockStream (c : Channel) (bytes : List UInt8) : Code Channel :=
  tcpWriteBlockLoop size bytes.length c bytes

/-- One character of the loops in `write_string` and `write_stringz`. -/
def writeStringChar (c : Channel) (ch : UInt8) : Code Channel :=
  if ch ≠ ESC ∧ c.buf.length < size.bytes then put size c ch else tcpWriteStream size c (.byte ch)

/-- `str` is the text up to its NUL. -/
def writeString (c : Channel) (str : List UInt8) : Code Channel := str.foldlM (writeStringChar size) c

def writeStringz (c : Channel) (str : List UInt8) : Code Channel := writeString size c (str ++ [0])

/-- The posted lazy flush. -/
def tcpFlushEvent (c : Channel) : Code Channel :=
  let c := { c with outFlushCnt := c.outFlushCnt - 1 }
  if c.outFlushCnt = 0 ∨ c.outEomCnt > 3 then tcpFlushWithFlags size c else pure c

/-- Calls a message writer makes, and the event loop's flush between messages. -/
inductive Op where
  | write (item : Item)
  | writeBlock (bytes : List UInt8)
  | writeString (str : List UInt8)
  | writeStringz (str : List UInt8)
  | flushEvent
  deriving DecidableEq, Repr

def Op.items : Op → List Item
  | .write item => [item]
  | .writeBlock bytes => bytes.map .byte
  | .writeString str => str.map .byte
  | .writeStringz str => (str ++ [0]).map .byte
  | .flushEvent => []

/-- A message leaves no block open, so the event loop never sees one. -/
def process : Process Channel Op where
  enabled c
    | .flushEvent => 0 < c.outFlushCnt ∧ c.outBinBlock = none
    | _ => True
  decide c op := by cases op <;> infer_instance
  step c
    | .write item => writeStream size c item
    | .writeBlock bytes => tcpWriteBlockStream size c bytes
    | .writeString str => writeString size c str
    | .writeStringz str => writeStringz size c str
    | .flushEvent => tcpFlushEvent size c

/-! What the bytes written so far stand for. -/

def wire (c : Channel) : List UInt8 := c.flushed.flatten ++ c.buf

variable {size} (int : IntShift)

/-- No block is open and the wire stands for the tokens, up to an unfinished mode. -/
structure Written (size : BufSize) (c : Channel) (mode : Mode) (toks : List Token) : Prop where
  room : c.buf.length ≤ size.bytes
  up : c.disconnected = false ∧ c.outErrno = 0
  closed : c.outBinBlock = none
  mode : after int .plain (wire c) = mode
  toks : tokens int .plain (wire c) = toks

def blankHeader (size : BufSize) : List UInt8 :=
  if size.bytes > 0x4000 then [ESC,3,0,0,0] else [ESC,3,0,0]

/-- A block with at least one byte is open after a complete prefix. -/
structure InBlock (size : BufSize) (c : Channel) (toks : List Token) : Prop where
  room : c.buf.length ≤ size.bytes
  up : c.disconnected = false ∧ c.outErrno = 0
  split : ∃ before data, c.buf = before ++ blankHeader size ++ data ∧ data ≠ [] ∧
    c.outBinBlock = some (before.length + headerSize size) ∧
    after int .plain (c.flushed.flatten ++ before) = .plain ∧
    toks = tokens int .plain (c.flushed.flatten ++ before) ++ data.map .byte

def Encodes (size : BufSize) (c : Channel) (toks : List Token) : Prop :=
  Written int size c .plain toks ∨ InBlock int size c toks

theorem blankHeader_length (size : BufSize) : (blankHeader size).length = headerSize size := by
  unfold blankHeader headerSize
  split <;> rfl

variable {c : Channel}

theorem put_ok (room : c.buf.length < size.bytes) (ch : UInt8) :
    put size c ch = .ok { c with buf := c.buf ++ [ch] } := by
  simp [put,require_true room]

variable {toks : List Token}

theorem put_written {mode : Mode}
    (h : Written int size c mode toks) (room : c.buf.length < size.bytes) (ch : UInt8) :
    ∃ next, put size c ch = .ok next ∧ next.buf.length = c.buf.length + 1 ∧
      Written int size next (step int mode ch).1 (toks ++ (step int mode ch).2.toList) := by
  refine ⟨_,put_ok room ch,by simp,⟨by simp; omega,h.up,h.closed,?_,?_⟩⟩
  all_goals
    have whole : wire { c with buf := c.buf ++ [ch] } = wire c ++ [ch] := by simp [wire]
    rw [whole]
  · rw [after_append,h.mode,after_cons,after_nil]
  · rw [tokens_append,h.mode,h.toks,tokens_cons,tokens_nil,List.append_nil]

theorem put_inBlock (h : InBlock int size c toks)
    (room : c.buf.length < size.bytes) (ch : UInt8) :
    ∃ next, put size c ch = .ok next ∧ InBlock int size next (toks ++ [.byte ch]) := by
  obtain ⟨before,data,buf,nonempty,block,whole,rfl⟩ := h.split
  refine ⟨_,put_ok room ch,⟨by simp; omega,h.up,before,data ++ [ch],?_,by simp,block,whole,?_⟩⟩
  · simp [buf]
  · simp

/-- Flushing moves the buffer to the wire and changes no token. -/
theorem flushIfFull_written {mode : Mode}
    (h : Written int size c mode toks) :
    ∃ next, flushIfFull size c = .ok next ∧ Written int size next mode toks ∧
      next.buf.length < size.bytes := by
  have big := size.room
  by_cases full : c.buf.length = size.bytes
  · have some_ : c.buf ≠ [] := by intro empty; simp [empty] at full; omega
    refine ⟨{ c with flushed := c.flushed ++ [c.buf], buf := [], outEomCnt := 0 },?_,
      ⟨by simp,h.up,h.closed,?_,?_⟩,by simp; omega⟩
    · simp [flushIfFull,full,tcpFlushWithFlags,require_true h.closed,some_,h.up]
    · simpa [wire] using h.mode
    · simpa [wire] using h.toks
  · exact ⟨c,by simp [flushIfFull,full],h,by have := h.room; omega⟩

theorem writeEscape_written (h : Written int size c .plain toks)
    (room : c.buf.length < size.bytes) (item : Item) (escaped : item.marker = true ∨ item = .byte ESC) :
    ∃ next, writeEscape size c item = .ok next ∧ Written int size next .plain (toks ++ [item.token]) := by
  obtain ⟨one,put1,_,written1⟩ := put_written int h room ESC
  obtain ⟨two,flush,written2,room2⟩ := flushIfFull_written int written1
  obtain ⟨three,put2,_,written3⟩ := put_written int written2 room2 (escapeCode item)
  refine ⟨three,by simp [writeEscape,put1,flush,put2],?_⟩
  have esc : step int .plain ESC = (.escaped,none) := by simp [step]
  rw [esc] at written3
  cases item with
  | byte value =>
    obtain rfl : value = ESC := by simpa [Item.marker] using escaped
    simpa [step,escapeCode,escapeStep,Item.token] using written3
  | eom => simpa [step,escapeCode,escapeStep,Item.token] using written3
  | eos => simpa [step,escapeCode,escapeStep,Item.token] using written3

/-- Closing a block patches its length, and the wire then stands for its bytes. -/
theorem endBlock_written (h : Encodes int size c toks) :
    Written int size (endBlock size c) .plain toks := by
  rcases h with written | block
  · simpa [endBlock,written.closed] using written
  · obtain ⟨before,data,buf,nonempty,start,whole,rfl⟩ := block.split
    have len : c.buf.length - (before.length + headerSize size) = data.length := by
      rw [buf]
      simp only [List.length_append,blankHeader_length]
      omega
    have small := block.room
    rw [buf] at small
    simp only [List.length_append,blankHeader_length] at small
    have fits := size.fits
    have positive : data.length ≠ 0 := by simpa using nonempty
    -- the header as it reads once its length is patched in
    obtain ⟨header,patched,width,last,silent⟩ : ∃ header,
        endBlock size c = { c with buf := before ++ ESC :: header ++ data, outBinBlock := none } ∧
        header.length + 1 = headerSize size ∧
        after int .escaped header = counting data.length ∧ tokens int .escaped header = [] := by
      simp only [endBlock,start,tcpBinBlockEnd,len,if_neg positive]
      by_cases wide : size.bytes > 0x4000
      · refine ⟨_,?_,?_,size_three int data.length (by simp [headerSize,wide] at small; omega)⟩
        · simp [wide,buf,blankHeader,headerSize]
        · simp [headerSize,wide]
      · refine ⟨_,?_,?_,size_two int data.length (by simp [headerSize,wide] at small; omega)⟩
        · simp [wide,buf,blankHeader,headerSize]
        · simp [headerSize,wide]
    have esc : step int .plain ESC = (.escaped,none) := by simp [step]
    have afterHeader : after int .plain (c.flushed.flatten ++ before ++ ESC :: header) =
        counting data.length := by rw [after_append,whole,after_cons,esc,last]
    have tokensHeader : tokens int .plain (c.flushed.flatten ++ before ++ ESC :: header) =
        tokens int .plain (c.flushed.flatten ++ before) := by
      rw [tokens_append,whole,tokens_cons,esc,silent]
      simp
    have bytes := data_run int data 0
    rw [patched]
    have same : wire { c with buf := before ++ ESC :: header ++ data, outBinBlock := none } =
        c.flushed.flatten ++ before ++ ESC :: header ++ data := by simp [wire]
    refine ⟨by simp; omega,block.up,rfl,?_,?_⟩
    · rw [same,after_append,afterHeader]
      exact bytes.1
    · rw [same,tokens_append,afterHeader,tokensHeader]
      exact congrArg _ bytes.2

theorem tcpBinBlockStart_ok (room : c.buf.length + 32 ≤ size.bytes) :
    tcpBinBlockStart size c = .ok { c with
      buf := c.buf ++ blankHeader size, outBinBlock := some (c.buf.length + headerSize size) } := by
  unfold tcpBinBlockStart
  by_cases wide : size.bytes > 0x4000
  all_goals
    simp (disch := (try simp only [List.length_append,List.length_cons,List.length_nil]); omega)
      [put_ok,wide,blankHeader,headerSize]

/-- Starting a block for a byte leaves that byte in the block. -/
theorem startBlock_inBlock (h : Written int size c .plain toks)
    (room : c.buf.length + 32 < size.bytes) (ch : UInt8) :
    ∃ next, (tcpBinBlockStart size c >>= fun c => put size c ch) = .ok next ∧
      InBlock int size next (toks ++ [.byte ch]) := by
  have header : headerSize size ≤ 5 := by unfold headerSize; split <;> omega
  have fits : (c.buf ++ blankHeader size).length < size.bytes := by
    simp only [List.length_append,blankHeader_length]; omega
  refine ⟨_,by simp only [tcpBinBlockStart_ok (Nat.le_of_lt room),Code.ok_bind]; exact put_ok fits ch,?_⟩
  refine ⟨by simp [blankHeader_length] at fits ⊢; omega,h.up,c.buf,[ch],by simp,by simp,by simp,h.mode,?_⟩
  rw [show c.flushed.flatten ++ c.buf = wire c from rfl,h.toks]
  rfl

/-- An end of message or of stream ends the open block. -/
theorem tcpWriteStream_marker (h : Encodes int size c toks)
    {item : Item} (marked : item.marker = true) :
    ∃ next, tcpWriteStream size c item = .ok next ∧ Written int size next .plain (toks ++ [item.token]) := by
  obtain ⟨two,flush,written,room⟩ := flushIfFull_written int (endBlock_written int h)
  obtain ⟨next,run,result⟩ := writeEscape_written int written room item (.inl marked)
  simp only [tcpWriteStream,if_pos (Or.inr (Or.inr marked)),flush,Code.ok_bind]
  cases item with
  | byte ch => cases marked
  | eom =>
    exact ⟨countEom next .eom,by simp only [run,Code.ok_bind]; rfl,
      ⟨result.room,result.up,result.closed,result.mode,result.toks⟩⟩
  | eos => exact ⟨next,by simp only [run,Code.ok_bind]; rfl,result⟩

/-- Every way `tcp_write_stream` writes an item adds exactly that item's token. -/
theorem tcpWriteStream_encodes (h : Encodes int size c toks)
    (item : Item) :
    ∃ next, tcpWriteStream size c item = .ok next ∧ Encodes int size next (toks ++ [item.token]) := by
  have big := size.room
  cases marked : item.marker with
  | true =>
    obtain ⟨next,run,written⟩ := tcpWriteStream_marker int h marked
    exact ⟨next,run,.inl written⟩
  | false =>
    obtain ⟨ch,rfl⟩ : ∃ ch, item = .byte ch := by
      cases item with
      | byte ch => exact ⟨ch,rfl⟩
      | eom | eos => cases marked
    by_cases slow : c.supportsZeroCopy = false ∨ c.buf.length ≥ size.bytes - 32 ∨
        (Item.byte ch).marker = true
    · obtain ⟨two,flush,written,room⟩ := flushIfFull_written int (endBlock_written int h)
      simp only [tcpWriteStream,if_pos slow,flush,Code.ok_bind]
      by_cases esc : ch = ESC
      · obtain ⟨next,run,result⟩ := writeEscape_written int written room (.byte ch) (.inr (by rw [esc]))
        exact ⟨next,by simpa [esc] using run,.inl result⟩
      · obtain ⟨next,run,_,result⟩ := put_written int written room ch
        simp only [step,if_neg esc] at result
        exact ⟨next,by simpa [esc] using run,.inl result⟩
    · simp only [not_or] at slow
      rcases h with written | block
      · obtain ⟨next,run,result⟩ := startBlock_inBlock int written (by omega) ch
        refine ⟨next,?_,.inr result⟩
        simpa [tcpWriteStream,slow,written.closed] using run
      · obtain ⟨next,run,result⟩ := put_inBlock int block (by omega) ch
        obtain ⟨before,data,_,_,start,_⟩ := block.split
        refine ⟨next,?_,.inr result⟩
        simpa [tcpWriteStream,slow,start] using run

theorem writeStream_encodes (h : Encodes int size c toks)
    (item : Item) :
    ∃ next, writeStream size c item = .ok next ∧ Encodes int size next (toks ++ [item.token]) := by
  cases item with
  | byte ch =>
    by_cases fast : ch > ESC ∧ c.buf.length < size.bytes
    · have other : ch ≠ ESC := by
        rintro rfl
        exact absurd fast.1 (by decide)
      simp only [writeStream,if_pos fast]
      rcases h with written | block
      · obtain ⟨next,run,_,result⟩ := put_written int written fast.2 ch
        simp only [step,if_neg other] at result
        exact ⟨next,run,.inl result⟩
      · obtain ⟨next,run,result⟩ := put_inBlock int block fast.2 ch
        exact ⟨next,run,.inr result⟩
    · simp only [writeStream,if_neg fast]
      exact tcpWriteStream_encodes int h _
  | eom => exact tcpWriteStream_encodes int h _
  | eos => exact tcpWriteStream_encodes int h _

/-- Bytes free of ESC may be copied to a buffer that has room for them. -/
theorem copy_plain (h : Written int size c .plain toks)
    (bytes : List UInt8) (free : ESC ∉ bytes) (room : c.buf.length + bytes.length ≤ size.bytes) :
    Written int size { c with buf := c.buf ++ bytes } .plain (toks ++ bytes.map .byte) := by
  have whole : wire { c with buf := c.buf ++ bytes } = wire c ++ bytes := by simp [wire]
  obtain ⟨last,out⟩ := plain_run int bytes free
  refine ⟨by simpa using room,h.up,h.closed,?_,?_⟩
  · rw [whole,after_append,h.mode,last]
  · rw [whole,tokens_append,h.mode,h.toks,out]

theorem copy_inBlock (h : InBlock int size c toks)
    (bytes : List UInt8) (room : c.buf.length + bytes.length ≤ size.bytes) :
    InBlock int size { c with buf := c.buf ++ bytes } (toks ++ bytes.map .byte) := by
  obtain ⟨before,data,buf,nonempty,start,whole,rfl⟩ := h.split
  refine ⟨by simpa using room,h.up,before,data ++ bytes,?_,by simp [nonempty],start,whole,?_⟩
  · simp [buf]
  · simp

/-- The bytes copied up to the next ESC or the end of the buffer. -/
theorem plainFront (src : List UInt8) (n : Nat) :
    let run := (src.take n).takeWhile (· ≠ ESC)
    ESC ∉ run ∧ run.length ≤ n ∧ src = run ++ src.drop run.length := by
  intro run
  have front : run <+: src := (List.takeWhile_prefix _).trans (List.take_prefix ..)
  refine ⟨?_,?_,(List.prefix_iff_eq_append.mp front).symm⟩
  · intro member
    simpa using List.all_eq_true.mp List.all_takeWhile ESC member
  · exact Nat.le_trans (List.takeWhile_sublist _).length_le (List.length_take_le ..)

/-- One pass takes a nonempty front part of the source and writes its bytes. -/
theorem tcpWriteBlockStep_encodes (h : Encodes int size c toks)
    (first : UInt8) (rest : List UInt8) :
    ∃ next taken left, tcpWriteBlockStep size c first rest = .ok (next,left) ∧
      first :: rest = taken ++ left ∧ taken ≠ [] ∧
      Encodes int size next (toks ++ taken.map .byte) := by
  obtain ⟨slow,single,written⟩ := tcpWriteStream_encodes int h (.byte first)
  have count : min (size.bytes - c.buf.length) (first :: rest).length ≤ (first :: rest).length :=
    Nat.min_le_right ..
  unfold tcpWriteBlockStep
  dsimp only
  generalize hn : min (size.bytes - c.buf.length) (first :: rest).length = n at count
  have one : ∃ next taken left,
      (do pure (← tcpWriteStream size c (.byte first),rest)) = Except.ok (next,left) ∧
      first :: rest = taken ++ left ∧ taken ≠ [] ∧ Encodes int size next (toks ++ taken.map .byte) :=
    ⟨slow,[first],rest,by simp [single],rfl,by simp,written⟩
  by_cases full : n = 0
  · simp only [if_pos full]
    exact one
  have fits : c.buf.length + n ≤ size.bytes := by omega
  rw [if_neg full]
  rcases h with closed | inside
  · rw [if_neg (by simp [closed.closed])]
    by_cases esc : first ≠ ESC
    · rw [if_pos esc]
      obtain ⟨free,short,front⟩ := plainFront (first :: rest) n
      refine ⟨_,_,_,rfl,front,?_,.inl (copy_plain int closed _ free (by omega))⟩
      rw [List.take_cons (by omega)]
      simp [esc]
    · rw [if_neg esc]
      exact one
  · obtain ⟨_,_,_,_,start,_⟩ := inside.split
    rw [if_pos (by simp [start])]
    have length : ((first :: rest).take n).length = n := List.length_take_of_le count
    refine ⟨_,_,_,rfl,(List.take_append_drop n _).symm,?_,
      .inr (copy_inBlock int inside _ (by rw [length]; exact fits))⟩
    intro empty
    rw [empty] at length
    exact full length.symm

theorem tcpWriteBlockLoop_encodes (fuel : Nat) (bytes : List UInt8) (enough : bytes.length ≤ fuel)
    (h : Encodes int size c toks) :
    ∃ next, tcpWriteBlockLoop size fuel c bytes = .ok next ∧
      Encodes int size next (toks ++ bytes.map .byte) := by
  induction fuel generalizing bytes c toks with
  | zero =>
    obtain rfl : bytes = [] := List.length_eq_zero_iff.mp (Nat.le_zero.mp enough)
    exact ⟨c,rfl,by simpa using h⟩
  | succ fuel ih =>
    cases bytes with
    | nil => exact ⟨c,rfl,by simpa using h⟩
    | cons first rest =>
      obtain ⟨middle,taken,left,pass,split,nonempty,written⟩ := tcpWriteBlockStep_encodes int h first rest
      have progress : 0 < taken.length := List.length_pos_iff.mpr nonempty
      have length := congrArg List.length split
      simp only [List.length_cons,List.length_append] at length enough
      obtain ⟨next,loop,result⟩ := ih left (by omega) written
      refine ⟨next,by simp [tcpWriteBlockLoop,pass,loop],?_⟩
      rw [split,List.map_append,← List.append_assoc]
      exact result

theorem writeString_encodes (str : List UInt8)
    (h : Encodes int size c toks) :
    ∃ next, writeString size c str = .ok next ∧ Encodes int size next (toks ++ str.map .byte) := by
  induction str generalizing c toks with
  | nil => exact ⟨c,rfl,by simpa using h⟩
  | cons ch rest ih =>
    obtain ⟨middle,char,written⟩ : ∃ next, writeStringChar size c ch = .ok next ∧
        Encodes int size next (toks ++ [.byte ch]) := by
      by_cases fast : ch ≠ ESC ∧ c.buf.length < size.bytes
      · refine ⟨{ c with buf := c.buf ++ [ch] },by rw [writeStringChar,if_pos fast,put_ok fast.2],?_⟩
        rcases h with closed | inside
        · exact .inl (copy_plain int closed [ch] (by simp [Ne.symm fast.1]) fast.2)
        · exact .inr (copy_inBlock int inside [ch] fast.2)
      · simp only [writeStringChar,if_neg fast]
        exact tcpWriteStream_encodes int h (.byte ch)
    obtain ⟨next,loop,result⟩ := ih written
    refine ⟨next,?_,by simpa using result⟩
    simpa [writeString,char] using loop

/-- Flushing a buffer between messages moves it to the wire. -/
theorem tcpFlushWithFlags_written
    (h : Written int size c .plain toks) :
    ∃ next, tcpFlushWithFlags size c = .ok next ∧ Written int size next .plain toks ∧
      next.flushed.flatten = wire c := by
  by_cases empty : c.buf = []
  · refine ⟨c,?_,h,by simp [wire,empty]⟩
    simp [tcpFlushWithFlags,require_true h.closed,empty]
  · refine ⟨{ c with flushed := c.flushed ++ [c.buf], buf := [], outEomCnt := 0 },?_,
      ⟨by simp,h.up,h.closed,?_,?_⟩,by simp [wire]⟩
    · simp [tcpFlushWithFlags,require_true h.closed,require_true h.room,empty,h.up]
    · simpa [wire] using h.mode
    · simpa [wire] using h.toks

theorem tcpFlushEvent_encodes (h : Encodes int size c toks)
    (between : c.outBinBlock = none) :
    ∃ next, tcpFlushEvent size c = .ok next ∧ Encodes int size next toks := by
  rcases h with closed | inside
  · have written : Written int size { c with outFlushCnt := c.outFlushCnt - 1 } .plain toks :=
      ⟨closed.room,closed.up,closed.closed,closed.mode,closed.toks⟩
    unfold tcpFlushEvent
    dsimp only
    split
    · obtain ⟨next,flush,result,_⟩ := tcpFlushWithFlags_written int written
      exact ⟨next,flush,.inl result⟩
    · exact ⟨_,rfl,.inl written⟩
  · obtain ⟨_,_,_,_,start,_⟩ := inside.split
    simp [between] at start

theorem tokens_of_bytes (bytes : List UInt8) :
    (bytes.map Item.byte).map Item.token = bytes.map .byte := by
  simp [Function.comp_def,Item.token]

/-- No write fails, and each adds the tokens of its items. -/
theorem step_encodes (h : Encodes int size c toks) (op : Op)
    (can : (process size).enabled c op) :
    ∃ next, (process size).step c op = .ok next ∧
      Encodes int size next (toks ++ op.items.map Item.token) := by
  cases op with
  | write item => exact writeStream_encodes int h item
  | writeBlock bytes =>
    rw [Op.items,tokens_of_bytes]
    exact tcpWriteBlockLoop_encodes int bytes.length bytes (Nat.le_refl _) h
  | writeString str =>
    rw [Op.items,tokens_of_bytes]
    exact writeString_encodes int str h
  | writeStringz str =>
    rw [Op.items,tokens_of_bytes]
    exact writeString_encodes int (str ++ [0]) h
  | flushEvent => simpa [process,Op.items] using tcpFlushEvent_encodes int h can.2

theorem exec_encodes (ops : List Op) {final : Channel}
    (h : Encodes int size c toks) (run : (process size).exec c ops = .ok final) :
    Encodes int size final (toks ++ (ops.flatMap Op.items).map Item.token) := by
  induction ops generalizing c toks with
  | nil =>
    cases run
    simpa using h
  | cons op rest ih =>
    obtain ⟨can,next,step,run⟩ := (process size).exec_cons.mp run
    obtain ⟨same,ok,written⟩ := step_encodes int h op can
    obtain rfl : same = next := Except.ok.inj (ok.symm.trans step)
    simpa using ih written run

end Tcf.ChannelOutput
