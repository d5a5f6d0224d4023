import Tcf.JsonBinary

/-! What the BASE64 reader takes. Its groups are of four items, however the reads are split, and a
padded one may come before others and end in anything. -/
namespace Tcf.Json

open Framing

/-- The decoding of a valid text: padding is in the last group only. -/
def lastGroup (ch0 ch1 ch2 ch3 : UInt8) : Option (List UInt8) := do
  let n0 ← digit64 (.byte ch0)
  let n1 ← digit64 (.byte ch1)
  if ch2 = padding ∧ ch3 = padding then some [n0 <<< 2 ||| n1 >>> 4]
  else do
    let n2 ← digit64 (.byte ch2)
    if ch3 = padding then some [n0 <<< 2 ||| n1 >>> 4,n1 <<< 4 ||| n2 >>> 2]
    else do
      let n3 ← digit64 (.byte ch3)
      some [n0 <<< 2 ||| n1 >>> 4,n1 <<< 4 ||| n2 >>> 2,n2 <<< 6 ||| n3]

def fullGroup (ch0 ch1 ch2 ch3 : UInt8) : Option (List UInt8) := do
  let n0 ← digit64 (.byte ch0)
  let n1 ← digit64 (.byte ch1)
  let n2 ← digit64 (.byte ch2)
  let n3 ← digit64 (.byte ch3)
  some [n0 <<< 2 ||| n1 >>> 4,n1 <<< 4 ||| n2 >>> 2,n2 <<< 6 ||| n3]

def decode64 : List UInt8 → Option (List UInt8)
  | [] => some []
  | [ch0,ch1,ch2,ch3] => lastGroup ch0 ch1 ch2 ch3
  | ch0 :: ch1 :: ch2 :: ch3 :: rest => do
    let bytes ← fullGroup ch0 ch1 ch2 ch3
    let more ← decode64 rest
    some (bytes ++ more)
  | _ => none

/-- A character of the alphabet. -/
structure Sextet where
  ch : UInt8
  bits : UInt8
  valid : digit64 (.byte ch) = some bits

/-- What the reader takes as a group, by the number of its bytes. -/
inductive Group where
  | three (d0 d1 d2 d3 : Sextet)
  | two (d0 d1 d2 : Sextet)
  | one (d0 d1 : Sextet) (fourth : Item)

namespace Group

def items : Group → Input
  | three d0 d1 d2 d3 => [.byte d0.ch,.byte d1.ch,.byte d2.ch,.byte d3.ch]
  | two d0 d1 d2 => [.byte d0.ch,.byte d1.ch,.byte d2.ch,.byte padding]
  | one d0 d1 fourth => [.byte d0.ch,.byte d1.ch,.byte padding,fourth]

def bytes : Group → List UInt8
  | three d0 d1 d2 d3 =>
    [d0.bits <<< 2 ||| d1.bits >>> 4,d1.bits <<< 4 ||| d2.bits >>> 2,d2.bits <<< 6 ||| d3.bits]
  | two d0 d1 d2 => [d0.bits <<< 2 ||| d1.bits >>> 4,d1.bits <<< 4 ||| d2.bits >>> 2]
  | one d0 d1 _ => [d0.bits <<< 2 ||| d1.bits >>> 4]

def Padded : Group → Prop
  | three .. => False
  | two .. | one .. => True

/-- Its padding is whole. -/
def Proper : Group → Prop
  | three .. | two .. => True
  | one _ _ fourth => fourth = .byte padding

end Group

/-- Groups up to an item that begins none. -/
def readWhole : Input → Code (List UInt8 × Input)
  | ch0 :: ch1 :: ch2 :: ch3 :: rest =>
    match digit64 ch0 with
    | none => pure ([],ch0 :: ch1 :: ch2 :: ch3 :: rest)
    | some n0 => do
      let (group,_) ← readGroup n0 [ch1,ch2,ch3]
      let (bytes,left) ← readWhole rest
      pure (group.1 ++ bytes,left)
  | [] => .error .stuck
  | ch0 :: short => if (digit64 ch0).isSome then .error .stuck else pure ([],ch0 :: short)

/-- Bytes that were read before. -/
def prepend (front : List UInt8) (code : Code (List UInt8 × Input)) : Code (List UInt8 × Input) :=
  code >>= fun back => pure (front ++ back.1,back.2)

@[simp] theorem prepend_ok (front back : List UInt8) (inp : Input) : prepend front (.ok (back,inp)) = .ok (front ++ back,inp) := rfl

@[simp] theorem prepend_error (front : List UInt8) (stop : Stop) : prepend front (.error stop) = .error stop := rfl

@[simp] theorem prepend_nil (code : Code (List UInt8 × Input)) : prepend [] code = code := by
  cases code <;> rfl

@[simp] theorem prepend_prepend (front middle : List UInt8) (code : Code (List UInt8 × Input)) :
    prepend front (prepend middle code) = prepend (front ++ middle) code := by
  cases code with
  | error stop => rfl
  | ok back => simp [prepend]

theorem prepend_bind {α : Type} (front : List UInt8) (code : Code α) (next : α → Code (List UInt8 × Input)) :
    prepend front (code >>= next) = code >>= fun a => prepend front (next a) := by
  cases code <;> rfl

variable {left inp : Input} {bytes : List UInt8}

section Groups

theorem digit64_sextet {item : Item} {n : UInt8} (valid : digit64 item = some n) :
    ∃ d : Sextet, item = .byte d.ch ∧ n = d.bits := by
  cases item with
  | byte ch => exact ⟨⟨ch,n,valid⟩,rfl,rfl⟩
  | eom | eos => cases valid

/-- What is behind a group does not matter to it. -/
theorem readGroup_rest (n0 : UInt8) (ch1 ch2 ch3 : Item) (rest : Input) :
    readGroup n0 (ch1 :: ch2 :: ch3 :: rest) = readGroup n0 [ch1,ch2,ch3] >>= fun read => pure (read.1,rest) := by
  simp only [readGroup,readStream,Code.ok_bind]
  cases digit64 ch1 with
  | none => rfl
  | some n1 =>
    by_cases pad : ch2 = .byte padding
    · simp only [if_pos pad]
      rfl
    simp only [if_neg pad]
    cases digit64 ch2 with
    | none => rfl
    | some n2 =>
      by_cases pad' : ch3 = .byte padding
      · simp only [if_pos pad']
        rfl
      simp only [if_neg pad']
      cases digit64 ch3 <;> rfl

theorem readGroup_group {d0 : Sextet} {ch1 ch2 ch3 : Item} {group : List UInt8 × Bool}
    (reads : readGroup d0.bits [ch1,ch2,ch3] = .ok (group,left)) :
    ∃ g : Group, .byte d0.ch :: [ch1,ch2,ch3] = g.items ∧ group.1 = g.bytes ∧ (group.2 = false → group.1.length = 3) := by
  simp only [readGroup,readStream,Code.ok_bind] at reads
  cases one : digit64 ch1 with
  | none => simp [one] at reads
  | some n1 =>
    obtain ⟨d1,rfl,rfl⟩ := digit64_sextet one
    simp only [one] at reads
    by_cases pad : ch2 = .byte padding
    · simp only [if_pos pad,Code.pure_eq] at reads
      cases reads
      exact ⟨.one d0 d1 ch3,by rw [pad]; rfl,rfl,by simp⟩
    simp only [if_neg pad] at reads
    cases two : digit64 ch2 with
    | none => simp [two] at reads
    | some n2 =>
      obtain ⟨d2,rfl,rfl⟩ := digit64_sextet two
      simp only [two] at reads
      by_cases pad' : ch3 = .byte padding
      · simp only [if_pos pad',Code.pure_eq] at reads
        cases reads
        exact ⟨.two d0 d1 d2,by rw [pad']; rfl,rfl,by simp⟩
      simp only [if_neg pad'] at reads
      cases three : digit64 ch3 with
      | none => simp [three] at reads
      | some n3 =>
        obtain ⟨d3,rfl,rfl⟩ := digit64_sextet three
        simp only [three,Code.pure_eq] at reads
        cases reads
        exact ⟨.three d0 d1 d2 d3,rfl,rfl,fun _ => rfl⟩

theorem sextet_no_padding (d : Sextet) : d.ch ≠ padding := by
  have pad : digit64 (.byte padding) = none := by decide
  intro same
  have valid := d.valid
  rw [same,pad] at valid
  cases valid

theorem readWhole_group (g : Group) (inp : Input) :
    readWhole (g.items ++ inp) = prepend g.bytes (readWhole inp) := by
  have plain (d : Sextet) : ¬(Item.byte d.ch = .byte padding) := by
    simpa using sextet_no_padding d
  cases g with
  | three d0 d1 d2 d3 =>
    simp only [Group.items,List.cons_append,List.nil_append,readWhole,readGroup,readStream,Code.ok_bind,Sextet.valid,
      if_neg (plain _),Code.pure_eq,Group.bytes,prepend]
  | two d0 d1 d2 =>
    simp only [Group.items,List.cons_append,List.nil_append,readWhole,readGroup,readStream,Code.ok_bind,Sextet.valid,
      if_neg (plain _),if_true,Code.pure_eq,Group.bytes,prepend]
  | one d0 d1 fourth =>
    simp only [Group.items,List.cons_append,List.nil_append,readWhole,readGroup,readStream,Code.ok_bind,Sextet.valid,
      if_true,Code.pure_eq,Group.bytes,prepend]

theorem items_four (g : Group) : ∃ a b c d, g.items = [a,b,c,d] := by
  cases g with
  | three | two | one => exact ⟨_,_,_,_,rfl⟩

/-- Nothing begins here. -/
def Ended (inp : Input) : Prop := ∃ ch rest, inp = ch :: rest ∧ digit64 ch = none

theorem readWhole_ended (ended : Ended inp) : readWhole inp = .ok ([],inp) := by
  obtain ⟨ch,rest,rfl,none_⟩ := ended
  match rest with
  | [] | [_] | [_,_] => simp [readWhole,none_]
  | _ :: _ :: _ :: _ => simp [readWhole,none_]

/-- The reader takes any number of groups. -/
theorem readWhole_ok_iff :
    readWhole inp = .ok (bytes,left) ↔
      ∃ groups : List Group, inp = groups.flatMap Group.items ++ left ∧ bytes = groups.flatMap Group.bytes ∧ Ended left := by
  constructor
  · intro reads
    induction inp using readWhole.induct generalizing bytes with
    | case1 ch0 ch1 ch2 ch3 rest none_ =>
      simp only [readWhole,none_,Code.pure_eq,Except.ok.injEq,Prod.mk.injEq] at reads
      obtain ⟨rfl,rfl⟩ := reads
      exact ⟨[],rfl,rfl,ch0,_,rfl,none_⟩
    | case2 ch0 ch1 ch2 ch3 rest n0 zero ih =>
      obtain ⟨d0,rfl,rfl⟩ := digit64_sextet zero
      simp only [readWhole,zero,Code.bind_ok_iff] at reads
      obtain ⟨⟨group,_⟩,first,⟨more,left'⟩,later,same⟩ := reads
      simp only [Code.pure_eq,Except.ok.injEq,Prod.mk.injEq] at same
      obtain ⟨rfl,rfl⟩ := same
      obtain ⟨g,items,value,_⟩ := readGroup_group first
      obtain ⟨groups,rfl,rfl,ended⟩ := ih later
      refine ⟨g :: groups,?_,?_,ended⟩
      · rw [List.flatMap_cons,← items]
        rfl
      · rw [List.flatMap_cons,value]
    | case3 => cases reads
    | case4 ch0 short no_four some_ =>
      rw [readWhole,if_pos some_] at reads
      · cases reads
      · exact no_four
    | case5 ch0 short no_four none_ =>
      rw [readWhole,if_neg none_,Code.pure_eq,Except.ok.injEq,Prod.mk.injEq] at reads
      · obtain ⟨rfl,rfl⟩ := reads
        exact ⟨[],rfl,rfl,ch0,short,rfl,by simpa using none_⟩
      · exact no_four
  · rintro ⟨groups,rfl,rfl,ended⟩
    induction groups with
    | nil => exact readWhole_ended ended
    | cons g groups ih =>
      rw [List.flatMap_cons,List.append_assoc,readWhole_group,ih]
      rfl

end Groups

variable {rest : Input} {groups : List Group} {calls : Nat}

section Split

theorem readWhole_short {ch0 : Item} {n0 : UInt8} (zero : digit64 ch0 = some n0) (short : rest.length < 3) :
    readWhole (ch0 :: rest) = .error .stuck ∧ readGroup n0 rest = .error .stuck := by
  match rest with
  | [] | [_] | [_,_] => simp [readWhole,readGroup,readStream,zero]
  | _ :: _ :: _ :: _ =>
    simp only [List.length_cons] at short
    omega

variable {room : Nat}

/-- A turn of the loop. -/
theorem readGroups_four (large : ¬room < 3) (fuel : Nat) (d0 : Sextet) (ch1 ch2 ch3 : Item) (rest : Input) :
    readGroups (fuel + 1) room (.byte d0.ch :: ch1 :: ch2 :: ch3 :: rest) = readGroup d0.bits [ch1,ch2,ch3] >>= fun read =>
      if read.1.2 = true then pure (read.1.1,rest)
      else readGroups fuel (room - 3) rest >>= fun back => pure (read.1.1 ++ back.1,back.2) := by
  simp only [readGroups,if_neg large,peekStream,readStream,Code.ok_bind,d0.valid]
  rw [readGroup_rest]
  cases readGroup d0.bits [ch1,ch2,ch3] <;> rfl

theorem three_ahead (long : ¬rest.length < 3) : ∃ ch1 ch2 ch3 more, rest = ch1 :: ch2 :: ch3 :: more := by
  rcases rest with _ | ⟨ch1,_ | ⟨ch2,_ | ⟨ch3,more⟩⟩⟩
  · simp at long
  · simp at long
  · simp at long
  · exact ⟨ch1,ch2,ch3,more,rfl⟩

variable {fuel : Nat}

/-- Reading as many groups as there is room for, and then the others, is reading them all. -/
theorem readGroups_whole (enough : room < 3 * fuel) (inp : Input) :
    (readGroups fuel room inp >>= fun read => prepend read.1 (readWhole read.2)) = readWhole inp := by
  induction fuel generalizing room inp with
  | zero => omega
  | succ fuel ih =>
    rw [readGroups]
    by_cases small : room < 3
    · rw [if_pos small]
      exact prepend_nil _
    rw [if_neg small]
    cases inp with
    | nil => rfl
    | cons ch0 rest =>
      simp only [peekStream,Code.ok_bind]
      cases zero : digit64 ch0 with
      | none => exact prepend_nil _
      | some n0 =>
        simp only [readStream,Code.ok_bind]
        by_cases short : rest.length < 3
        · obtain ⟨whole,group⟩ := readWhole_short zero short
          rw [whole,group]
          rfl
        obtain ⟨ch1,ch2,ch3,rest,rfl⟩ := three_ahead short
        simp only [readGroup_rest n0 ch1 ch2 ch3 rest,readWhole,zero]
        cases readGroup n0 [ch1,ch2,ch3] with
        | error stop => rfl
        | ok read =>
          simp only [Code.ok_bind,Code.pure_eq]
          by_cases padded : read.1.2 = true
          · rw [if_pos padded]
            rfl
          · have later := ih (by omega : room - 3 < 3 * fuel) rest
            rw [if_neg padded,← later]
            cases readGroups fuel (room - 3) rest with
            | error stop => rfl
            | ok front =>
              simp only [Code.ok_bind,← prepend_prepend]
              rfl

/-- Groups that fit, one after the other. -/
def Filled : Nat → List Group → Prop
  | _, [] => True
  | room, g :: groups => 3 ≤ room ∧ Filled (room - g.bytes.length) groups

theorem bytes_length (g : Group) : 0 < g.bytes.length ∧ g.bytes.length ≤ 3 := by
  cases g <;> simp [Group.bytes]

theorem readGroups_groups
    (reads : readGroups fuel room inp = .ok (bytes,left)) :
    ∃ groups : List Group, inp = groups.flatMap Group.items ++ left ∧ bytes = groups.flatMap Group.bytes ∧ Filled room groups ∧
      (groups = [] → room < 3 ∨ Ended left) := by
  induction fuel generalizing room inp left bytes with
  | zero => cases reads
  | succ fuel ih =>
    rw [readGroups] at reads
    by_cases small : room < 3
    · rw [if_pos small] at reads
      cases reads
      exact ⟨[],rfl,rfl,trivial,fun _ => .inl small⟩
    rw [if_neg small] at reads
    cases inp with
    | nil => cases reads
    | cons ch0 rest =>
      simp only [peekStream,Code.ok_bind] at reads
      cases zero : digit64 ch0 with
      | none =>
        simp only [zero] at reads
        cases reads
        exact ⟨[],rfl,rfl,trivial,fun _ => .inr ⟨ch0,rest,rfl,zero⟩⟩
      | some n0 =>
        obtain ⟨d0,rfl,rfl⟩ := digit64_sextet zero
        simp only [zero,readStream,Code.ok_bind] at reads
        by_cases short : rest.length < 3
        · simp only [(readWhole_short zero short).2] at reads
          cases reads
        obtain ⟨ch1,ch2,ch3,rest,rfl⟩ := three_ahead short
        rw [readGroup_rest] at reads
        cases first : readGroup d0.bits [ch1,ch2,ch3] with
        | error stop => simp [first] at reads
        | ok read =>
          obtain ⟨g,items,value,full⟩ := readGroup_group first
          simp only [first,Code.ok_bind,Code.pure_eq] at reads
          by_cases padded : read.1.2 = true
          · rw [if_pos padded] at reads
            cases reads
            refine ⟨[g],?_,by simpa using value,⟨Nat.not_lt.mp small,trivial⟩,fun none_ => by simp at none_⟩
            rw [List.flatMap_singleton,← items]
            rfl
          · rw [if_neg padded,Code.bind_ok_iff] at reads
            obtain ⟨back,later,same⟩ := reads
            cases same
            obtain ⟨groups,split,value',filled,_⟩ := ih later
            have three : g.bytes.length = 3 := by
              rw [← value]
              exact full (by simpa using padded)
            refine ⟨g :: groups,?_,?_,⟨Nat.not_lt.mp small,by rw [three]; exact filled⟩,fun none_ => by simp at none_⟩
            · rw [List.flatMap_cons,← items,split]
              simp
            · rw [List.flatMap_cons,value,value']

theorem filled_sizes (filled : Filled room groups) :
    (groups.flatMap Group.bytes).length ≤ room ∧ (groups.flatMap Group.bytes).length ≤ (groups.flatMap Group.items).length := by
  induction groups generalizing room with
  | nil => exact ⟨Nat.zero_le _,Nat.le_refl _⟩
  | cons g groups ih =>
    obtain ⟨fits,later⟩ := filled
    obtain ⟨inside,takes⟩ := ih later
    obtain ⟨_,small⟩ := bytes_length g
    obtain ⟨_,_,_,_,four⟩ := items_four g
    simp only [List.flatMap_cons,List.length_append,four,List.length_cons,List.length_nil]
    omega

/-- Every byte takes an item, and a read that comes to nothing had no room or is at the end. -/
theorem readGroups_takes
    (reads : readGroups fuel room inp = .ok (bytes,left)) :
    bytes.length ≤ room ∧ left.length + bytes.length ≤ inp.length ∧ (bytes = [] → room < 3 ∨ Ended left) := by
  obtain ⟨groups,rfl,rfl,filled,last⟩ := readGroups_groups reads
  obtain ⟨inside,takes⟩ := filled_sizes filled
  refine ⟨inside,by rw [List.length_append]; omega,fun none_ => last ?_⟩
  cases groups with
  | nil => rfl
  | cons g groups =>
    have some_ := (bytes_length g).1
    simp [(List.append_eq_nil_iff.mp (List.flatMap_cons ▸ none_)).1] at some_

theorem readBase64_takes (reads : readBase64 inp room = .ok (bytes,left)) :
    bytes.length ≤ room ∧ left.length + bytes.length ≤ inp.length ∧ (bytes = [] → Ended left) := by
  rw [readBase64,Code.require_bind_ok] at reads
  obtain ⟨large,reads⟩ := reads
  obtain ⟨fits,takes,last⟩ := readGroups_takes reads
  refine ⟨fits,takes,fun none_ => ?_⟩
  rcases last none_ with small | ended
  · omega
  · exact ended

/-- What a reader has not handed out. -/
def Reader.pending (st : Reader) : Code (List UInt8 × Input) := prepend st.buf (readWhole st.inp)

theorem readBase64_whole (large : 3 ≤ room) (inp : Input) :
    (readBase64 inp room >>= fun read => prepend read.1 (readWhole read.2)) = readWhole inp := by
  rw [readBase64,require_true large,Code.ok_bind]
  exact readGroups_whole (by omega) inp

variable {len : Nat} {st : Reader}

/-- A call hands out the front of what is pending. -/
theorem readParts_pending (short : st.buf.length ≤ 3)
    (enough : 2 * len + (if st.buf = [] then 1 else 0) < fuel) :
    (readParts fuel st len >>= fun read => prepend read.1.1 read.2.pending) = st.pending := by
  induction fuel generalizing st len with
  | zero => omega
  | succ fuel ih =>
    rw [readParts]
    by_cases finished : len = 0
    · rw [if_pos finished]
      exact prepend_nil _
    rw [if_neg finished,require_true short,Code.ok_bind]
    by_cases part : (st.buf.take len).length < st.buf.length
    · simp only [if_pos part,Code.pure_eq,Code.ok_bind,Reader.pending,prepend_prepend,List.take_append_drop]
    have covered : st.buf.length ≤ len := by
      rw [List.length_take] at part
      omega
    have whole : st.buf.take len = st.buf := List.take_of_length_le covered
    simp only [whole,Nat.lt_irrefl,if_false]
    by_cases direct : len - st.buf.length ≥ 3
    · have split := readBase64_whole direct st.inp
      rw [if_pos direct,Reader.pending,← split,prepend_bind]
      cases reads : readBase64 st.inp (len - st.buf.length) with
      | error stop => rfl
      | ok front =>
        obtain ⟨bytes,inp⟩ := front
        simp only [Code.ok_bind,prepend_prepend]
        by_cases none_ : bytes = []
        · subst none_
          simp only [if_true,Code.pure_eq,Code.ok_bind,Reader.pending,prepend_nil,List.append_nil]
        · have some_ := List.length_pos_of_ne_nil none_
          have later := @ih (len - st.buf.length - bytes.length) { st with inp, buf := [] } (by simp)
            (by rw [if_pos rfl]; omega)
          rw [Reader.pending,prepend_nil] at later
          rw [if_neg none_,← later,prepend_bind,bind_assoc]
          simp only [Code.pure_eq,Code.ok_bind,prepend_prepend,List.append_assoc]
    · have split := readBase64_whole (Nat.le_refl 3) st.inp
      rw [if_neg direct,Reader.pending,← split,prepend_bind]
      cases reads : readBase64 st.inp 3 with
      | error stop => rfl
      | ok front =>
        obtain ⟨bytes,inp⟩ := front
        simp only [Code.ok_bind,prepend_prepend]
        by_cases none_ : bytes = []
        · subst none_
          simp only [if_true,Code.pure_eq,Code.ok_bind,Reader.pending,prepend_nil,List.append_nil]
        · obtain ⟨fits,_,_⟩ := readBase64_takes reads
          have later := @ih (len - st.buf.length) { st with inp, buf := bytes } fits (by
            rw [if_neg none_]
            by_cases empty : st.buf = []
            · rw [if_pos empty] at enough
              omega
            · have := List.length_pos_of_ne_nil empty
              omega)
          rw [Reader.pending] at later
          rw [if_neg none_,← prepend_prepend,← later,prepend_bind,bind_assoc]
          simp only [Code.pure_eq,Code.ok_bind,prepend_prepend]

/-- The reader keeps what it does not hand out, and comes to nothing only at the end. -/
theorem readParts_takes {next : Reader} {early : Bool} (short : st.buf.length ≤ 3)
    (reads : readParts fuel st len = .ok ((bytes,early),next)) :
    next.encoding = st.encoding ∧ next.sizeStart = st.sizeStart ∧ next.buf.length ≤ 3 ∧ bytes.length ≤ len ∧
      next.inp.length + next.buf.length + bytes.length ≤ st.inp.length + st.buf.length ∧
      (bytes = [] → 0 < len → next.buf = [] ∧ Ended next.inp) := by
  induction fuel generalizing st next len bytes early with
  | zero => cases reads
  | succ fuel ih =>
    rw [readParts] at reads
    by_cases finished : len = 0
    · rw [if_pos finished] at reads
      cases reads
      exact ⟨rfl,rfl,short,Nat.zero_le _,Nat.le_refl _,by omega⟩
    rw [if_neg finished,require_true short,Code.ok_bind] at reads
    by_cases part : (st.buf.take len).length < st.buf.length
    · simp only [if_pos part,Code.pure_eq] at reads
      cases reads
      rw [List.length_take] at part
      refine ⟨rfl,rfl,?_,?_,?_,fun none_ => ?_⟩
      · rw [List.length_drop]
        omega
      · rw [List.length_take]
        omega
      · change st.inp.length + (st.buf.drop len).length + (st.buf.take len).length ≤ st.inp.length + st.buf.length
        rw [List.length_drop,List.length_take]
        omega
      · have size := congrArg List.length none_
        rw [List.length_take,List.length_nil] at size
        omega
    have covered : st.buf.length ≤ len := by
      rw [List.length_take] at part
      omega
    have whole : st.buf.take len = st.buf := List.take_of_length_le covered
    simp only [whole,Nat.lt_irrefl,if_false] at reads
    by_cases direct : len - st.buf.length ≥ 3
    · rw [if_pos direct,Code.bind_ok_iff] at reads
      obtain ⟨⟨front,inp⟩,first,reads⟩ := reads
      obtain ⟨fits,takes,ended⟩ := readBase64_takes first
      simp only at reads
      by_cases none_ : front = []
      · rw [if_pos none_,Code.pure_eq] at reads
        cases reads
        exact ⟨rfl,rfl,Nat.zero_le _,covered,by simp only [List.length_nil]; omega,fun _ _ => ⟨rfl,ended none_⟩⟩
      · rw [if_neg none_,Code.bind_ok_iff] at reads
        obtain ⟨⟨⟨more,early'⟩,next'⟩,later,same⟩ := reads
        cases same
        obtain ⟨encoding,start,bound,room,takes',_⟩ := ih (by simp) later
        refine ⟨encoding,start,bound,?_,?_,fun nothing => ?_⟩
        · simp only [List.length_append]
          omega
        · simp only [List.length_append,List.length_nil] at takes' ⊢
          omega
        · simp [none_] at nothing
    · rw [if_neg direct,Code.bind_ok_iff] at reads
      obtain ⟨⟨front,inp⟩,first,reads⟩ := reads
      obtain ⟨fits,takes,ended⟩ := readBase64_takes first
      simp only at reads
      by_cases none_ : front = []
      · rw [if_pos none_,Code.pure_eq] at reads
        cases reads
        exact ⟨rfl,rfl,Nat.zero_le _,covered,by simp only [List.length_nil]; omega,fun _ _ => ⟨rfl,ended none_⟩⟩
      · rw [if_neg none_,Code.bind_ok_iff] at reads
        obtain ⟨⟨⟨more,early'⟩,next'⟩,later,same⟩ := reads
        cases same
        obtain ⟨encoding,start,bound,room,takes',last⟩ := ih fits later
        refine ⟨encoding,start,bound,?_,?_,fun nothing positive => ?_⟩
        · simp only [List.length_append]
          omega
        · simp only [List.length_append] at takes' ⊢
          omega
        · obtain ⟨empty,nothing⟩ := List.append_eq_nil_iff.mp nothing
          refine last nothing ?_
          rw [empty,List.length_nil]
          omega

theorem jsonReadBinaryData_pending (base : st.encoding = .base64) (short : st.buf.length ≤ 3) (len : Nat) :
    (jsonReadBinaryData st len >>= fun read => prepend read.1 read.2.pending) = st.pending := by
  have enough : 2 * len + (if st.buf = [] then 1 else 0) < 2 * len + 2 := by
    split <;> omega
  rw [jsonReadBinaryData,base,← readParts_pending short enough]
  simp only
  cases readParts (2 * len + 2) st len with
  | error stop => rfl
  | ok read =>
    simp only [Code.ok_bind,Code.pure_eq]
    split <;> rfl

theorem jsonReadBinaryData_takes {next : Reader} (base : st.encoding = .base64)
    (short : st.buf.length ≤ 3) (reads : jsonReadBinaryData st len = .ok (bytes,next)) :
    next.encoding = .base64 ∧ next.sizeStart = st.sizeStart ∧ next.buf.length ≤ 3 ∧ bytes.length ≤ len ∧
      next.inp.length + next.buf.length + bytes.length ≤ st.inp.length + st.buf.length ∧
      (bytes = [] → 0 < len → next.buf = [] ∧ Ended next.inp) := by
  simp only [jsonReadBinaryData,base,Code.bind_ok_iff] at reads
  obtain ⟨⟨⟨front,early⟩,middle⟩,parts,same⟩ := reads
  obtain ⟨encoding,start,bound,room,takes,last⟩ := readParts_takes short parts
  rw [base] at encoding
  cases early with
  | false =>
    cases same
    exact ⟨encoding,start,bound,room,takes,last⟩
  | true =>
    cases same
    exact ⟨encoding,start,bound,room,takes,last⟩

/-- The calls that fill the buffer read everything. -/
theorem readAllocLoop_pending {size : Nat} {buf : List UInt8} (base : st.encoding = .base64)
    (short : st.buf.length ≤ 3) (inside : buf.length ≤ size) (enough : st.inp.length + st.buf.length < calls) :
    (readAllocLoop calls buf size st >>= fun read => jsonReadBinaryEnd read.2 >>= fun rest => pure (read.1,rest)) =
      prepend buf st.pending >>= fun read => jsonTestChar quote read.2 >>= fun rest => pure (read.1,rest) := by
  induction calls generalizing size buf st with
  | zero => omega
  | succ calls ih =>
    have room := growBuf_room inside
    have split := jsonReadBinaryData_pending base short (growBuf buf.length size - buf.length)
    simp only [readAllocLoop]
    rw [← split]
    cases reads : jsonReadBinaryData st (growBuf buf.length size - buf.length) with
    | error stop => rfl
    | ok read =>
      obtain ⟨bytes,next⟩ := read
      obtain ⟨base',_,short',fits,takes,last⟩ := jsonReadBinaryData_takes base short reads
      simp only [Code.ok_bind,prepend_prepend]
      by_cases none_ : bytes = []
      · obtain ⟨empty,ended⟩ := last none_ (by omega)
        have finish : jsonReadBinaryEnd next = jsonTestChar quote next.inp := by
          simp [jsonReadBinaryEnd,empty,base']
        rw [if_pos none_,Code.pure_eq,Code.ok_bind,finish,Reader.pending,empty,readWhole_ended ended,none_]
        simp only [prepend_ok,List.append_nil,Code.ok_bind]
      · have some_ := List.length_pos_of_ne_nil none_
        rw [if_neg none_,ih base' short' (by rw [List.length_append]; omega) (by omega)]

theorem readAllocLoop_start {size : Nat} {buf all : List UInt8} {last : Reader} (base : st.encoding = .base64)
    (short : st.buf.length ≤ 3) (reads : readAllocLoop calls buf size st = .ok (all,last)) : last.sizeStart = st.sizeStart := by
  induction calls generalizing size buf st with
  | zero => cases reads
  | succ calls ih =>
    simp only [readAllocLoop,Code.bind_ok_iff] at reads
    obtain ⟨⟨bytes,next⟩,first,reads⟩ := reads
    obtain ⟨base',start,short',_⟩ := jsonReadBinaryData_takes base short first
    simp only at reads
    by_cases none_ : bytes = []
    · rw [if_pos none_,Code.pure_eq] at reads
      cases reads
      exact start
    · rw [if_neg none_] at reads
      exact (ih base' short' reads).trans start

/-- A quoted value is read as the groups up to white space and a quote. -/
theorem jsonReadAllocBinary_quoted {body : Input} (bufSize : Nat)
    (quoted : jsonPeek inp = .ok (.byte quote,.byte quote :: body)) (enough : body.length < calls) :
    jsonReadAllocBinary calls bufSize inp =
      readWhole body >>= fun read => jsonTestChar quote read.2 >>= fun rest => pure (some read.1,rest) := by
  have no_null : ¬(Item.byte quote = .byte 0x6e) := by decide
  have start : jsonReadBinaryStart (.byte quote :: body) = .ok ⟨body,.base64,0,0,[]⟩ := by
    have other : ¬(Item.byte quote = .byte 0x28) := by decide
    simp only [jsonReadBinaryStart,readToken_plain (by decide : isSpace (.byte quote) = false),Code.ok_bind,if_neg other,if_true]
    rfl
  have loop := @readAllocLoop_pending calls ⟨body,.base64,0,0,[]⟩ bufSize [] rfl (Nat.zero_le _) (Nat.zero_le _) enough
  simp only [Reader.pending,prepend_nil] at loop
  have result : (readWhole body >>= fun read => jsonTestChar quote read.2 >>= fun rest => pure (some read.1,rest)) =
      ((readWhole body >>= fun read => jsonTestChar quote read.2 >>= fun rest => pure (read.1,rest)) >>=
        fun read => (pure (some read.1,read.2) : Code (Option (List UInt8) × Input))) := by
    rw [bind_assoc]
    simp only [bind_assoc,Code.pure_eq,Code.ok_bind]
  rw [result,← loop]
  simp only [jsonReadAllocBinary,quoted,Code.ok_bind,if_neg no_null,start]
  cases reads : readAllocLoop calls [] bufSize ⟨body,.base64,0,0,[]⟩ with
  | error stop => rfl
  | ok read =>
    obtain ⟨all,last⟩ := read
    have sizes : last.sizeStart = 0 ∨ all.length = last.sizeStart := .inl (readAllocLoop_start rfl (Nat.zero_le _) reads)
    simp only [Code.ok_bind,require_true sizes,bind_assoc,Code.pure_eq]

end Split

variable {spaces : Input}

section White

variable {x : Item}

theorem ignoreWhitespace_ok {ch : Item} (reads : ignoreWhitespace ch inp = .ok (x,rest)) :
    ∃ spaces : Input, ch :: inp = spaces ++ x :: rest ∧ ∀ s ∈ spaces, isSpace s = true := by
  induction inp generalizing ch with
  | nil =>
    rw [ignoreWhitespace] at reads
    split at reads
    · cases reads
    · cases reads
      exact ⟨[],rfl,by simp⟩
  | cons next inp ih =>
    rw [ignoreWhitespace] at reads
    split at reads
    next white =>
      obtain ⟨spaces,split,all⟩ := ih reads
      exact ⟨ch :: spaces,by rw [split]; rfl,by simpa [white] using all⟩
    next plain =>
      cases reads
      exact ⟨[],rfl,by simp⟩

theorem readToken_spaces (white : ∀ s ∈ spaces, isSpace s = true) (plain : isSpace x = false)
    (rest : Input) : readToken (spaces ++ x :: rest) = .ok (x,rest) := by
  induction spaces with
  | nil => exact readToken_plain plain rest
  | cons s spaces ih =>
    obtain ⟨first,later⟩ := List.forall_mem_cons.mp white
    have rest_ := ih later
    simp only [readToken,readStream,List.cons_append,Code.ok_bind] at rest_ ⊢
    cases spaces with
    | nil => simpa [ignoreWhitespace,first] using rest_
    | cons s' spaces => simpa [ignoreWhitespace,first] using rest_

theorem jsonTestChar_ok_iff {x : UInt8} (plain : isSpace (.byte x) = false) :
    jsonTestChar x inp = .ok rest ↔ ∃ spaces : Input, inp = spaces ++ .byte x :: rest ∧ ∀ s ∈ spaces, isSpace s = true := by
  constructor
  · intro reads
    simp only [jsonTestChar,readToken,Code.bind_ok_iff] at reads
    obtain ⟨⟨ch,inp'⟩,⟨⟨ch0,inp0⟩,first,token⟩,test⟩ := reads
    cases inp with
    | nil => cases first
    | cons ch1 inp1 =>
      cases first
      simp only at test
      by_cases same : ch = .byte x
      · rw [if_pos same] at test
        cases test
        subst same
        exact ignoreWhitespace_ok token
      · rw [if_neg same] at test
        cases test
  · rintro ⟨spaces,rfl,white⟩
    rw [jsonTestChar,readToken_spaces white plain]
    simp

theorem jsonPeek_spaces (white : ∀ s ∈ spaces, isSpace s = true) (plain : isSpace x = false)
    (rest : Input) : jsonPeek (spaces ++ x :: rest) = .ok (x,x :: rest) := by
  induction spaces with
  | nil => simp [jsonPeek,plain]
  | cons s spaces ih =>
    obtain ⟨first,later⟩ := List.forall_mem_cons.mp white
    rw [List.cons_append,jsonPeek,if_pos first]
    exact ih later

end White

section Strictness

/-- What is read of a value between quotes is the decoding of the text between them. -/
def ReadsStrictly (calls bufSize : Nat) (inp body : Input) : Prop :=
  ∀ result rest, jsonReadAllocBinary calls bufSize inp = .ok (result,rest) →
    ∃ text data, body = text.map .byte ++ .byte quote :: rest ∧ decode64 text = some data ∧ result = some data

/-- Groups and a closing quote, with another group behind a padded one, with half a padding, or with white space
before the quote. -/
def Sloppy (body : Input) : Prop :=
  ∃ (groups : List Group) (spaces rest : Input), body = groups.flatMap Group.items ++ (spaces ++ .byte quote :: rest) ∧
    (∀ s ∈ spaces, isSpace s = true) ∧
    ((∃ g ∈ groups.dropLast, g.Padded) ∨ (∃ g ∈ groups, ¬g.Proper) ∨ spaces ≠ [])

theorem quote_plain : isSpace (.byte quote) = false := by decide

theorem isSpace_no_digit {s : Item} (white : isSpace s = true) : digit64 s = none := by
  cases s with
  | eom | eos => rfl
  | byte ch =>
    have all : ∀ n < 0x21, digit64 (.byte (UInt8.ofNat n)) = none := by decide +kernel
    have low : ch.toNat < 0x21 := by
      simp only [isSpace,Bool.or_eq_true,Bool.and_eq_true,beq_iff_eq,decide_eq_true_eq,UInt8.le_iff_toNat_le,
        UInt8.reduceToNat] at white
      rcases white with rfl | ⟨_,high⟩
      · decide
      · omega
    have here := all ch.toNat low
    rwa [UInt8.ofNat_toNat] at here

/-- What the reader takes, and what it makes of it. -/
theorem jsonReadAllocBinary_ok_iff {body : Input} (bufSize : Nat)
    (white : ∀ s ∈ spaces, isSpace s = true) (enough : body.length < calls) {result : Option (List UInt8)} :
    jsonReadAllocBinary calls bufSize (spaces ++ .byte quote :: body) = .ok (result,rest) ↔
      ∃ (groups : List Group) (spaces' : Input), body = groups.flatMap Group.items ++ (spaces' ++ .byte quote :: rest) ∧
        (∀ s ∈ spaces', isSpace s = true) ∧ result = some (groups.flatMap Group.bytes) := by
  rw [jsonReadAllocBinary_quoted bufSize (jsonPeek_spaces white quote_plain body) enough,Code.bind_ok_iff]
  constructor
  · rintro ⟨⟨bytes,left⟩,whole,reads⟩
    rw [Code.bind_ok_iff] at reads
    obtain ⟨rest',closed,same⟩ := reads
    cases same
    obtain ⟨groups,rfl,rfl,_⟩ := readWhole_ok_iff.mp whole
    obtain ⟨spaces',rfl,white'⟩ := (jsonTestChar_ok_iff quote_plain).mp closed
    exact ⟨groups,spaces',rfl,white',rfl⟩
  · rintro ⟨groups,spaces',rfl,white',rfl⟩
    have ended : Ended (spaces' ++ .byte quote :: rest) := by
      cases spaces' with
      | nil => exact ⟨.byte quote,rest,rfl,digit64_quote⟩
      | cons s spaces' => exact ⟨s,spaces' ++ .byte quote :: rest,rfl,isSpace_no_digit (white' s List.mem_cons_self)⟩
    refine ⟨_,readWhole_ok_iff.mpr ⟨groups,rfl,rfl,ended⟩,?_⟩
    rw [(jsonTestChar_ok_iff quote_plain).mpr ⟨spaces',rfl,white'⟩]
    rfl

theorem decode64_more (ch0 ch1 ch2 ch3 : UInt8) {rest : List UInt8} (more : rest ≠ []) :
    decode64 (ch0 :: ch1 :: ch2 :: ch3 :: rest) = (fullGroup ch0 ch1 ch2 ch3).bind fun bytes =>
      (decode64 rest).bind fun more => some (bytes ++ more) := by
  obtain ⟨ch,rest,rfl⟩ := List.exists_cons_of_ne_nil more
  rfl

/-- Its characters, when the padding is whole. -/
def Group.text : Group → List UInt8
  | three d0 d1 d2 d3 => [d0.ch,d1.ch,d2.ch,d3.ch]
  | two d0 d1 d2 => [d0.ch,d1.ch,d2.ch,padding]
  | one d0 d1 _ => [d0.ch,d1.ch,padding,padding]

theorem items_text (proper : ∀ g ∈ groups, g.Proper) :
    groups.flatMap Group.items = (groups.flatMap Group.text).map .byte := by
  rw [List.map_flatMap]
  refine List.flatMap_congr fun g inside => ?_
  have whole := proper g inside
  cases g with
  | three | two => rfl
  | one d0 d1 fourth => rw [Group.items,whole]; rfl

theorem lastGroup_text (g : Group) : ∃ ch0 ch1 ch2 ch3, g.text = [ch0,ch1,ch2,ch3] ∧ lastGroup ch0 ch1 ch2 ch3 = some g.bytes := by
  cases g with
  | three d0 d1 d2 d3 =>
    refine ⟨_,_,_,_,rfl,?_⟩
    simp [lastGroup,Sextet.valid,sextet_no_padding,Group.bytes]
  | two d0 d1 d2 =>
    refine ⟨_,_,_,_,rfl,?_⟩
    simp [lastGroup,Sextet.valid,sextet_no_padding,Group.bytes]
  | one d0 d1 fourth =>
    refine ⟨_,_,_,_,rfl,?_⟩
    simp [lastGroup,Sextet.valid,Group.bytes]

theorem fullGroup_text {g : Group} (full : ¬g.Padded) :
    ∃ ch0 ch1 ch2 ch3, g.text = [ch0,ch1,ch2,ch3] ∧ fullGroup ch0 ch1 ch2 ch3 = some g.bytes := by
  cases g with
  | three d0 d1 d2 d3 =>
    refine ⟨_,_,_,_,rfl,?_⟩
    simp [fullGroup,Sextet.valid,Group.bytes]
  | two | one => exact absurd trivial full

theorem decode64_groups (inner : ∀ g ∈ groups.dropLast, ¬g.Padded) :
    decode64 (groups.flatMap Group.text) = some (groups.flatMap Group.bytes) := by
  induction groups with
  | nil => rfl
  | cons g groups ih =>
    cases groups with
    | nil =>
      obtain ⟨ch0,ch1,ch2,ch3,text,value⟩ := lastGroup_text g
      simpa [text,decode64] using value
    | cons g' groups =>
      rw [List.dropLast_cons_cons] at inner
      obtain ⟨first,later⟩ := List.forall_mem_cons.mp inner
      obtain ⟨ch0,ch1,ch2,ch3,text,value⟩ := fullGroup_text first
      obtain ⟨_,_,_,_,text',_⟩ := lastGroup_text g'
      have more : (g' :: groups).flatMap Group.text ≠ [] := by
        simp [text']
      rw [List.flatMap_cons,text,List.flatMap_cons]
      exact (decode64_more ch0 ch1 ch2 ch3 more).trans (by rw [value,ih later]; rfl)

theorem lastGroup_half {ch0 ch1 ch3 : UInt8} (value : lastGroup ch0 ch1 padding ch3 = some bytes) :
    ch3 = padding := by
  have pad : digit64 (.byte padding) = none := by decide
  by_cases whole : ch3 = padding
  · exact whole
  · simp [lastGroup,whole,pad] at value

theorem fullGroup_plain {ch0 ch1 ch2 ch3 : UInt8} (value : fullGroup ch0 ch1 ch2 ch3 = some bytes) :
    ch2 ≠ padding ∧ ch3 ≠ padding := by
  have pad : digit64 (.byte padding) = none := by decide
  constructor
  · rintro rfl
    simp [fullGroup,pad] at value
  · rintro rfl
    simp [fullGroup,pad] at value

theorem decode64_head {ch : UInt8} {more data : List UInt8} (value : decode64 (ch :: more) = some data) :
    digit64 (.byte ch) ≠ none := by
  intro none_
  match more with
  | [] | [_] | [_,_] => cases value
  | [ch1,ch2,ch3] => simp [decode64,lastGroup,none_] at value
  | ch1 :: ch2 :: ch3 :: ch4 :: more => simp [decode64,fullGroup,none_] at value

/-- Groups that spell a valid text are valid. -/
theorem groups_valid {text data : List UInt8}
    (white : ∀ s ∈ spaces, isSpace s = true) (spelt : groups.flatMap Group.items ++ spaces = text.map .byte)
    (value : decode64 text = some data) :
    spaces = [] ∧ (∀ g ∈ groups.dropLast, ¬g.Padded) ∧ ∀ g ∈ groups, g.Proper := by
  induction groups generalizing text data with
  | nil =>
    refine ⟨?_,by simp,by simp⟩
    cases text with
    | nil => simpa using spelt
    | cons ch text =>
      have first : .byte ch ∈ spaces := by
        rw [List.flatMap_nil,List.nil_append] at spelt
        simp [spelt]
      exact absurd (isSpace_no_digit (white _ first)) (decode64_head value)
  | cons g groups ih =>
    obtain ⟨a,b,c,d,four⟩ := items_four g
    rw [List.flatMap_cons,four] at spelt
    match text with
    | [] | [_] | [_,_] | [_,_,_] => simp at spelt
    | ch0 :: ch1 :: ch2 :: ch3 :: text =>
      simp only [List.cons_append,List.nil_append,List.map_cons,List.cons.injEq] at spelt
      obtain ⟨rfl,rfl,rfl,rfl,rest⟩ := spelt
      by_cases last : text = []
      · subst last
        obtain ⟨others,none_⟩ := List.append_eq_nil_iff.mp rest
        have alone : groups = [] := by
          cases groups with
          | nil => rfl
          | cons g' groups =>
            obtain ⟨_,_,_,_,four'⟩ := items_four g'
            simp [four'] at others
        subst alone
        refine ⟨none_,by simp,?_⟩
        rw [List.forall_mem_singleton]
        cases g with
        | three | two => trivial
        | one d0 d1 fourth =>
          cases four
          exact congrArg Item.byte (lastGroup_half value)
      · rw [decode64_more _ _ _ _ last] at value
        obtain ⟨bytes,first,value⟩ := Option.bind_eq_some_iff.mp value
        obtain ⟨more,later,_⟩ := Option.bind_eq_some_iff.mp value
        obtain ⟨none_,inner,proper⟩ := ih rest later
        obtain ⟨no_pad,no_pad'⟩ := fullGroup_plain first
        have full : ¬g.Padded ∧ g.Proper := by
          cases g with
          | three => exact ⟨fun padded => padded,trivial⟩
          | two =>
            cases four
            exact absurd rfl no_pad'
          | one =>
            cases four
            exact absurd rfl no_pad
        refine ⟨none_,?_,by simpa [full.2] using proper⟩
        cases groups with
        | nil => simp
        | cons g' groups =>
          rw [List.dropLast_cons_cons,List.forall_mem_cons]
          exact ⟨full.1,inner⟩

/-- The reader is strict on just those texts that are not sloppy. -/
theorem base64_strict_iff {spaces body : Input} {calls : Nat} (bufSize : Nat) (white : ∀ s ∈ spaces, isSpace s = true)
    (enough : body.length < calls) : ReadsStrictly calls bufSize (spaces ++ .byte quote :: body) body ↔ ¬Sloppy body := by
  constructor
  · rintro strict ⟨groups,spaces',rest,split,white',defect⟩
    obtain ⟨text,data,same,value,_⟩ := strict _ rest
      ((jsonReadAllocBinary_ok_iff bufSize white enough).mpr ⟨groups,spaces',split,white',rfl⟩)
    have spelt : groups.flatMap Group.items ++ spaces' = text.map .byte := by
      rw [split,← List.append_assoc] at same
      exact List.append_cancel_right same
    obtain ⟨none_,inner,proper⟩ := groups_valid white' spelt value
    rcases defect with ⟨g,inside,padded⟩ | ⟨g,inside,half⟩ | some_
    · exact inner g inside padded
    · exact half (proper g inside)
    · exact some_ none_
  · intro clean result rest reads
    obtain ⟨groups,spaces',split,white',rfl⟩ := (jsonReadAllocBinary_ok_iff bufSize white enough).mp reads
    have inner : ∀ g ∈ groups.dropLast, ¬g.Padded := fun g inside padded =>
      clean ⟨groups,spaces',rest,split,white',.inl ⟨g,inside,padded⟩⟩
    have proper : ∀ g ∈ groups, g.Proper := fun g inside => by
      by_contra half
      exact clean ⟨groups,spaces',rest,split,white',.inr (.inl ⟨g,inside,half⟩)⟩
    have none_ : spaces' = [] := by
      by_contra some_
      exact clean ⟨groups,spaces',rest,split,white',.inr (.inr some_)⟩
    refine ⟨groups.flatMap Group.text,groups.flatMap Group.bytes,?_,decode64_groups inner,rfl⟩
    rw [split,items_text proper,none_,List.nil_append]

/-- One byte with half its padding, behind a blank. -/
theorem base64_strict_iff_half :
    ReadsStrictly 6 0 ([.byte 0x20] ++ .byte quote :: [0x51,0x51,0x3d,0x78,quote].map .byte) ([0x51,0x51,0x3d,0x78,quote].map .byte) ↔
      ¬Sloppy ([0x51,0x51,0x3d,0x78,quote].map .byte) :=
  base64_strict_iff 0 (by simp [isSpace]) (by decide)

/-- The text QQ=x is read as one byte, a padded group is read before another, and a marker is taken for padding. -/
theorem half_padding_read :
    jsonReadAllocBinary 6 0 ([quote,0x51,0x51,0x3d,0x78,quote].map .byte) = .ok (some [0x41],[]) ∧
    decode64 [0x51,0x51,0x3d,0x78] = none ∧
    ¬ReadsStrictly 6 0 ([quote,0x51,0x51,0x3d,0x78,quote].map .byte) ([0x51,0x51,0x3d,0x78,quote].map .byte) ∧
    jsonReadAllocBinary 10 0 ([quote,0x51,0x51,0x3d,0x3d,0x51,0x51,0x3d,0x3d,quote].map .byte) = .ok (some [0x41,0x41],[]) ∧
    decode64 [0x51,0x51,0x3d,0x3d,0x51,0x51,0x3d,0x3d] = none ∧
    jsonReadAllocBinary 6 0 ([quote,0x51,0x51,0x3d].map .byte ++ [.eom,.byte quote]) = .ok (some [0x41],[]) := by
  have half : jsonReadAllocBinary 6 0 ([quote,0x51,0x51,0x3d,0x78,quote].map .byte) = .ok (some [0x41],[]) := by decide +kernel
  have invalid : decode64 [0x51,0x51,0x3d,0x78] = none := by decide +kernel
  refine ⟨half,invalid,?_,?_,?_,?_⟩
  · intro strict
    obtain ⟨text,data,same,value,_⟩ := strict _ _ half
    have spelt : [0x51,0x51,0x3d,0x78].map Item.byte = text.map .byte := List.append_cancel_right same
    rw [← List.map_injective_iff.mpr (fun _ _ => Item.byte.inj) spelt,invalid] at value
    cases value
  all_goals decide +kernel

end Strictness

end Tcf.Json
