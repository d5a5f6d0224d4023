import Tcf.ChannelOutput

/-! Output streams as the writers of messages see them: room for direct copies, and calls
for everything else. The laws say what a stream holds afterwards. -/
namespace Tcf

open Framing

/-- The fields of an `OutputStream`, over the states of what implements it. `Holds` tells what
was written so far. Bytes may be copied to `cur` without a call when none is ESC. -/
structure OutStream (σ : Type) where
  supportsZeroCopy : σ → Bool
  room : σ → Nat
  copy : σ → List UInt8 → σ
  write : σ → Item → Code σ
  writeBlock : σ → List UInt8 → Code σ
  Holds : σ → List Item → Prop
  write_holds : ∀ {s : σ} {items : List Item}, Holds s items → ∀ item, ∃ next,
    write s item = .ok next ∧ Holds next (items ++ [item])
  writeBlock_holds : ∀ {s : σ} {items : List Item}, Holds s items → ∀ bytes, ∃ next,
    writeBlock s bytes = .ok next ∧ Holds next (items ++ bytes.map .byte)
  copy_holds : ∀ {s : σ} {items : List Item}, Holds s items → ∀ bytes, ESC ∉ bytes →
    bytes.length ≤ room s → Holds (copy s bytes) (items ++ bytes.map .byte)

namespace OutStream

variable {σ : Type} (S : OutStream σ)

/-- A stream together with what it holds. -/
structure Writing where
  state : σ
  items : List Item
  holds : S.Holds state items

/-- The macro `write_stream` for a byte. -/
def writeByte (s : σ) (ch : UInt8) : Code σ :=
  if ch > ESC ∧ 0 < S.room s then pure (S.copy s [ch]) else S.write s (.byte ch)

def writeBytes (s : σ) (bytes : List UInt8) : Code σ := bytes.foldlM S.writeByte s

theorem writeByte_holds {s : σ} {items : List Item} (h : S.Holds s items) (ch : UInt8) :
    ∃ next, S.writeByte s ch = .ok next ∧ S.Holds next (items ++ [.byte ch]) := by
  unfold writeByte
  split
  next fast =>
    have free : ESC ∉ [ch] := by
      rw [List.mem_singleton]
      rintro rfl
      exact absurd fast.1 (by decide)
    exact ⟨_,rfl,S.copy_holds h [ch] free fast.2⟩
  next => exact S.write_holds h (.byte ch)

theorem writeBytes_holds (bytes : List UInt8) {s : σ} {items : List Item} (h : S.Holds s items) :
    ∃ next, S.writeBytes s bytes = .ok next ∧ S.Holds next (items ++ bytes.map .byte) := by
  induction bytes generalizing s items with
  | nil => exact ⟨s,rfl,by simpa using h⟩
  | cons ch rest ih =>
    obtain ⟨middle,first,holds⟩ := S.writeByte_holds h ch
    obtain ⟨next,later,result⟩ := ih holds
    refine ⟨next,?_,by simpa using result⟩
    rw [writeBytes,List.foldlM_cons,first]
    exact later

end OutStream

open ChannelOutput in
/-- The output side of a TCP channel. -/
def tcpStream (size : BufSize) (int : IntShift) : OutStream Channel where
  supportsZeroCopy := Channel.supportsZeroCopy
  room c := size.bytes - c.buf.length
  copy c bytes := { c with buf := c.buf ++ bytes }
  write := tcpWriteStream size
  writeBlock := tcpWriteBlockStream size
  Holds c items := Encodes int size c (items.map Item.token)
  write_holds := by
    intro c items h item
    obtain ⟨next,run,written⟩ := tcpWriteStream_encodes int h item
    exact ⟨next,run,by simpa using written⟩
  writeBlock_holds := by
    intro c items h bytes
    obtain ⟨next,run,written⟩ := tcpWriteBlockLoop_encodes int bytes.length bytes (Nat.le_refl _) h
    refine ⟨next,run,?_⟩
    rw [List.map_append,tokens_of_bytes]
    exact written
  copy_holds := by
    intro c items h bytes free fits
    rw [List.map_append,tokens_of_bytes]
    rcases h with closed | inside
    · have room := closed.room
      exact .inl (copy_plain int closed bytes free (by omega))
    · have room := inside.room
      exact .inr (copy_inBlock int inside bytes (by omega))

open ChannelOutput in
/-- A channel that has written nothing. -/
def tcpFresh (size : BufSize) (int : IntShift) (supportsZeroCopy : Bool) : (tcpStream size int).Writing where
  state := ⟨supportsZeroCopy,[],none,[],false,0,0,0⟩
  items := []
  holds := .inl ⟨Nat.zero_le _,⟨rfl,rfl⟩,rfl,rfl,rfl⟩

/-- What `(char)byte` keeps of an item. -/
def Framing.Item.char : Item → UInt8
  | .byte value => value
  | .eom => 0xff
  | .eos => 0xfe

/-- `ByteArrayOutputStream`: no direct copies. -/
def byteArrayStream : OutStream (List UInt8) where
  supportsZeroCopy _ := false
  room _ := 0
  copy s bytes := s ++ bytes
  write s item := .ok (s ++ [item.char])
  writeBlock s bytes := .ok (s ++ bytes)
  Holds s items := s = items.map Item.char
  write_holds := by
    rintro s items rfl item
    exact ⟨_,rfl,by simp⟩
  writeBlock_holds := by
    rintro s items rfl bytes
    exact ⟨_,rfl,by simp [Function.comp_def,Item.char]⟩
  copy_holds := by
    rintro s items rfl bytes _ _
    simp [Function.comp_def,Item.char]

end Tcf
