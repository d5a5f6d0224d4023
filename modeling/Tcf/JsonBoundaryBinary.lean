import Tcf.JsonBoundary

/-! Binary data at a boundary: a block is read to its declared size and a BASE64 group to its fourth item,
whatever they are. -/
namespace Tcf.Json

open Framing Boundary

instance : Remains Reader Item := ⟨Reader.inp,fun st inp => { st with inp }⟩

variable {m : Item} {front : Input} {α κ : Type} {K : κ → Prop}

theorem stops_reader (value : α) (st : Reader) :
    StopsFor m front K fun _ inp => (pure (value,{ st with inp }) : Code (α × Reader)) :=
  .inr ⟨(value,{ st with inp := front }),Nat.le_refl _,fun _ _ _ => rfl⟩

section Start

variable (boundary : m.marker = true)

include boundary

theorem jsonReadBinaryStart_stops : StopsFor m front K fun _ => jsonReadBinaryStart := by
  have done (st : Reader) {left : Input} : StopsFor m left K fun _ inp => (pure { st with inp } : Code Reader) :=
    .inr ⟨{ st with inp := left },Nat.le_refl _,fun _ _ _ => rfl⟩
  refine stops_token boundary (fun x marker k inp => ?_) fun ch left _ => ?_
  · simp [marker_byte marker]
  · refine StopsFor.ite (fun _ => ?_) fun _ => StopsFor.ite (fun _ => done ⟨[],.base64,0,0,[]⟩) fun _ => ?_
    · refine StopsFor.bind_value (jsonReadUlong_stops boundary) fun size left' _ => ?_
      exact StopsFor.bind_rest (jsonTestChar_stops boundary _) fun _ _ => done ⟨[],.binary,size,0,[]⟩
    · refine StopsFor.ite (fun _ => ?_) fun _ => .raise fun _ _ => rfl
      exact StopsFor.bind_rest (testUll_stops boundary) fun _ _ => done ⟨[],.binary,0,0,[]⟩

theorem jsonReadBinaryEnd_stops {st : Reader} (read : st.encoding = .binary → st.sizeStart = st.sizeDone) :
    StopsFor m front K fun _ inp => jsonReadBinaryEnd { st with inp } := by
  simp only [jsonReadBinaryEnd]
  refine StopsFor.ite (fun _ => .raise fun _ _ => rfl) fun _ => ?_
  cases encoding : st.encoding with
  | binary =>
    simp only [require_true (read encoding),Code.ok_bind]
    exact stops_done
  | base64 =>
    exact jsonTestChar_stops boundary _

end Start

section Raw

theorem readRaw_ok {n : Nat} {inp : Input} (there : n ≤ inp.length) :
    readRaw n inp = .ok ((inp.take n).map Item.char,inp.drop n) := by
  induction n generalizing inp with
  | zero => cases inp <;> rfl
  | succ n ih =>
    cases inp with
    | nil => exact absurd there (Nat.not_succ_le_zero n)
    | cons x inp =>
      rw [readRaw,ih (Nat.le_of_succ_le_succ there)]
      rfl

theorem readRaw_stuck {n : Nat} {inp : Input} (less : inp.length < n) : readRaw n inp = .error .stuck := by
  induction n generalizing inp with
  | zero => exact absurd less (Nat.not_lt_zero _)
  | succ n ih =>
    cases inp with
    | nil => rfl
    | cons x inp =>
      rw [readRaw,ih (Nat.lt_of_succ_lt_succ less)]
      rfl

/-- A block is read to its declared size. -/
theorem jsonReadBinaryData_raw_iff {st : Reader} (raw : st.encoding = .binary) (len : Nat) :
    StopsAt m front (fun inp => jsonReadBinaryData { st with inp } len) ↔ min len (st.sizeStart - st.sizeDone) ≤ front.length := by
  generalize amount : min len (st.sizeStart - st.sizeDone) = n
  constructor
  · intro stops
    by_contra more
    have short : (front ++ [m]).length = front.length + 1 := by simp
    rcases stopsAt_iff.mp stops with raises | ⟨r,_,finishes⟩
    · have run := raises []
      simp only [jsonReadBinaryData,raw,amount] at run
      by_cases there : n ≤ front.length + 1
      · rw [readRaw_ok (by omega)] at run
        cases run
      · rw [readRaw_stuck (by omega)] at run
        cases run
    · have run := finishes []
      simp only [jsonReadBinaryData,raw,amount] at run
      by_cases there : n ≤ front.length + 1
      · have all : (front ++ [m]).drop n = [] := List.drop_eq_nil_of_le (by omega)
        rw [readRaw_ok (by omega),all] at run
        have left := congrArg (fun r : List UInt8 × Reader => r.2.inp) (Except.ok.inj run)
        exact absurd left.symm (List.append_ne_nil_of_right_ne_nil _ (List.cons_ne_nil m []))
      · rw [readRaw_stuck (by omega)] at run
        cases run
  · intro there
    refine stopsAt_iff.mpr (.inr ⟨((front.take n).map Item.char,
      { st with inp := front.drop n, sizeDone := st.sizeDone + ((front.take n).map Item.char).length }),?_,fun behind => ?_⟩)
    · exact List.length_drop.le.trans (Nat.sub_le _ _)
    · simp only [jsonReadBinaryData,raw,amount]
      rw [readRaw_ok (by rw [List.length_append]; omega),List.take_append_of_le_length there,List.drop_append_of_le_length there]
      rfl

end Raw

/-- A group that lacks an item the reader takes without looking at it first. -/
def Cut (tail : Input) : Prop :=
  (∃ d0 : Sextet, tail = [.byte d0.ch]) ∨ (∃ (d0 : Sextet) (x : Item), tail = [.byte d0.ch,x]) ∨
    ∃ d0 d1 : Sextet, tail = [.byte d0.ch,.byte d1.ch,.byte padding]

section Groups

theorem cut_starts {tail : Input} (cut : Cut tail) : ∃ (d : Sextet) (rest : Input), tail = .byte d.ch :: rest ∧ rest.length < 3 := by
  rcases cut with ⟨d0,rfl⟩ | ⟨d0,x,rfl⟩ | ⟨d0,d1,rfl⟩
  · exact ⟨d0,[],rfl,by simp⟩
  · exact ⟨d0,[x],rfl,by simp⟩
  · exact ⟨d0,_,rfl,by simp⟩

/-- The reader waits for what is behind the boundary. -/
theorem cut_stuck {tail : Input} (cut : Cut tail) (m : Item) : readWhole (tail ++ [m]) = .error .stuck := by
  rcases cut with ⟨d0,rfl⟩ | ⟨d0,x,rfl⟩ | ⟨d0,d1,rfl⟩
  · exact (readWhole_short d0.valid (by simp)).1
  · exact (readWhole_short d0.valid (by simp)).1
  · exact readWhole_group (.one d0 d1 m) []

theorem groups_stuck {tail : Input} (cut : Cut tail) (groups : List Group) (m : Item) :
    readWhole (groups.flatMap Group.items ++ (tail ++ [m])) = .error .stuck := by
  induction groups with
  | nil => exact cut_stuck cut m
  | cons g groups ih =>
    rw [List.flatMap_cons,List.append_assoc,readWhole_group,ih]
    rfl

theorem readGroup_error {n0 : UInt8} {ch1 ch2 ch3 : Item} {stop : Stop} (fails : readGroup n0 [ch1,ch2,ch3] = .error stop) :
    stop = .exception := by
  simp only [readGroup,readStream,Code.ok_bind] at fails
  cases one : digit64 ch1 with
  | none =>
    simp only [one,Except.error.injEq] at fails
    exact fails.symm
  | some n1 =>
    simp only [one] at fails
    by_cases pad : ch2 = .byte padding
    · simp [pad] at fails
    simp only [if_neg pad] at fails
    cases two : digit64 ch2 with
    | none =>
      simp only [two,Except.error.injEq] at fails
      exact fails.symm
    | some n2 =>
      simp only [two] at fails
      by_cases pad' : ch3 = .byte padding
      · simp [pad'] at fails
      simp only [if_neg pad'] at fails
      cases three : digit64 ch3 with
      | none =>
        simp only [three,Except.error.injEq] at fails
        exact fails.symm
      | some n3 => simp [three] at fails

/-- A group that begins in front of the boundary is there, or is cut, or raises an exception. -/
theorem group_there (boundary : m.marker = true) (d0 : Sextet) (rest : Input) :
    (∃ ch1 ch2 ch3 more, rest = ch1 :: ch2 :: ch3 :: more) ∨ Cut (.byte d0.ch :: rest) ∨
      ∃ ch1 ch2, rest = [ch1,ch2] ∧ readGroup d0.bits [ch1,ch2,m] = .error .exception := by
  match rest with
  | [] => exact .inr (.inl (.inl ⟨d0,rfl⟩))
  | [x] => exact .inr (.inl (.inr (.inl ⟨d0,x,rfl⟩)))
  | ch1 :: ch2 :: ch3 :: more => exact .inl ⟨ch1,ch2,ch3,more,rfl⟩
  | [ch1,ch2] =>
    cases one : digit64 ch1 with
    | none => exact .inr (.inr ⟨ch1,ch2,rfl,by simp [readGroup,readStream,one]⟩)
    | some n1 =>
      obtain ⟨d1,rfl,rfl⟩ := digit64_sextet one
      by_cases pad : ch2 = .byte padding
      · exact .inr (.inl (.inr (.inr ⟨d0,d1,by rw [pad]⟩)))
      · refine .inr (.inr ⟨_,ch2,rfl,?_⟩)
        have no_digit : digit64 m = none := by
          cases m with
          | byte ch => cases boundary
          | eom | eos => rfl
        cases two : digit64 ch2 with
        | none => simp [readGroup,readStream,one,pad,two]
        | some n2 => simp [readGroup,readStream,one,pad,two,no_digit,marker_byte boundary]

end Groups

/-- A call with room for `len` bytes, when `rem` are left from the last one, reads all these groups and asks for another. -/
def Demands : Nat → Nat → List Group → Prop
  | rem, len, [] => 0 < len ∧ rem ≤ len
  | rem, len, g :: groups => (0 < len ∧ rem ≤ len) ∧
    if len - rem ≥ 3 then Demands 0 (len - rem - g.bytes.length) groups else Demands g.bytes.length (len - rem) groups

/-- The call asks for a group that the boundary cuts off. -/
def Severed (rem len : Nat) (front : Input) : Prop :=
  ∃ (groups : List Group) (tail : Input), front = groups.flatMap Group.items ++ tail ∧ Cut tail ∧ Demands rem len groups

section Demands

variable {rem len room : Nat} {groups more : List Group}

theorem demands_asks (demands : Demands rem len groups) : 0 < len ∧ rem ≤ len := by
  cases groups with
  | nil => exact demands
  | cons g groups => exact demands.1

theorem demands_start (fits : rem ≤ len) (large : 3 ≤ len - rem) : Demands rem len groups ↔ Demands 0 (len - rem) groups := by
  have positive : 0 < len ∧ 0 < len - rem := by omega
  cases groups with
  | nil => simp [Demands,fits,positive]
  | cons g groups => simp [Demands,fits,positive,large]

/-- Groups that fit leave the room that they do not fill. -/
theorem demands_filled (filled : Filled room groups) :
    Demands 0 room (groups ++ more) ↔ Demands 0 (room - (groups.flatMap Group.bytes).length) more := by
  induction groups generalizing room with
  | nil => rfl
  | cons g groups ih =>
    obtain ⟨fits,later⟩ := filled
    have positive : 0 < room := by omega
    rw [List.flatMap_cons,List.length_append,← Nat.sub_sub,← ih later]
    simp [Demands,positive,fits]

theorem demands_front (demands : Demands rem len (groups ++ more)) : Demands rem len groups := by
  induction groups generalizing rem len with
  | nil => exact demands_asks demands
  | cons g groups ih =>
    obtain ⟨asks,later⟩ := demands
    refine ⟨asks,?_⟩
    split at later
    next large =>
      rw [if_pos large]
      exact ih later
    next small =>
      rw [if_neg small]
      exact ih later

theorem filled_one {bytes : List UInt8} (filled : Filled 3 groups) (value : bytes = groups.flatMap Group.bytes) (some_ : bytes ≠ []) :
    ∃ g, groups = [g] := by
  match groups with
  | [] => exact absurd value some_
  | [g] => exact ⟨g,rfl⟩
  | g :: g' :: groups =>
    have size := bytes_length g
    have second : 3 ≤ 3 - g.bytes.length := filled.2.1
    omega

end Demands

section Calls

/-- A call stops at an item that begins no group, or when it asks for no more. -/
theorem readParts_demands {fuel len : Nat} {st next : Reader} {bytes : List UInt8} {early : Bool}
    (reads : readParts fuel st len = .ok ((bytes,early),next)) :
    ∃ groups : List Group, st.inp = groups.flatMap Group.items ++ next.inp ∧ (Ended next.inp ∨ ¬Demands st.buf.length len groups) := by
  induction fuel generalizing st next len bytes early with
  | zero => cases reads
  | succ fuel ih =>
    rw [readParts] at reads
    by_cases finished : len = 0
    · rw [if_pos finished] at reads
      cases reads
      exact ⟨[],rfl,.inr fun asks => absurd asks.1 (by omega)⟩
    rw [if_neg finished,Code.require_bind_ok] at reads
    obtain ⟨short,reads⟩ := reads
    by_cases part : (st.buf.take len).length < st.buf.length
    · simp only [if_pos part,Code.pure_eq] at reads
      cases reads
      rw [List.length_take] at part
      exact ⟨[],rfl,.inr fun asks => absurd asks.2 (by omega)⟩
    have covered : st.buf.length ≤ len := by
      rw [List.length_take] at part
      omega
    have whole : st.buf.take len = st.buf := List.take_of_length_le covered
    simp only [whole,Nat.lt_irrefl,if_false] at reads
    by_cases direct : len - st.buf.length ≥ 3
    · rw [if_pos direct,Code.bind_ok_iff] at reads
      obtain ⟨⟨front,inp⟩,first,reads⟩ := reads
      rw [readBase64,Code.require_bind_ok] at first
      obtain ⟨groups,split,value,filled,last⟩ := readGroups_groups first.2
      simp only at reads
      by_cases none_ : front = []
      · rw [if_pos none_,Code.pure_eq] at reads
        cases reads
        exact ⟨groups,split,.inl ((readBase64_takes (by rw [readBase64,require_true direct]; exact first.2)).2.2 none_)⟩
      · rw [if_neg none_,Code.bind_ok_iff] at reads
        obtain ⟨⟨⟨more,early'⟩,next'⟩,later,same⟩ := reads
        cases same
        obtain ⟨groups',split',stop⟩ := ih later
        refine ⟨groups ++ groups',?_,stop.imp_right fun ends asks => ends ?_⟩
        · rw [split,List.flatMap_append,List.append_assoc,← split']
        · rw [demands_start covered direct,demands_filled filled,← value] at asks
          exact asks
    · rw [if_neg direct,Code.bind_ok_iff] at reads
      obtain ⟨⟨front,inp⟩,first,reads⟩ := reads
      obtain ⟨_,_,ended⟩ := readBase64_takes first
      rw [readBase64,Code.require_bind_ok] at first
      obtain ⟨groups,split,value,filled,_⟩ := readGroups_groups first.2
      simp only at reads
      by_cases none_ : front = []
      · rw [if_pos none_,Code.pure_eq] at reads
        cases reads
        exact ⟨groups,split,.inl (ended none_)⟩
      · rw [if_neg none_,Code.bind_ok_iff] at reads
        obtain ⟨⟨⟨more,early'⟩,next'⟩,later,same⟩ := reads
        cases same
        obtain ⟨groups',split',stop⟩ := ih later
        obtain ⟨g,rfl⟩ := filled_one filled value none_
        refine ⟨g :: groups',?_,stop.imp_right fun ends asks => ends ?_⟩
        · rw [split,List.flatMap_singleton,List.flatMap_cons,List.append_assoc,← split']
        · obtain ⟨_,later⟩ := asks
          rw [if_neg direct] at later
          rw [value,List.flatMap_singleton]
          exact later

/-- The groups in front of the boundary are read, up to one that it cuts off. -/
theorem readGroups_stops (boundary : m.marker = true) {fuel room : Nat} (enough : room < 3 * fuel) (front : Input) :
    StopsAt m front (readGroups fuel room) ∨ ∃ (groups : List Group) (tail : Input), front = groups.flatMap Group.items ++ tail ∧
      Cut tail ∧ Filled room groups ∧ 3 ≤ room - (groups.flatMap Group.bytes).length := by
  have no_digit : digit64 m = none := by
    cases m with
    | byte ch => cases boundary
    | eom | eos => rfl
  induction fuel generalizing room front with
  | zero => omega
  | succ fuel ih =>
    by_cases small : room < 3
    · refine .inl (stopsAt_iff.mpr (.inr ⟨([],front),Nat.le_refl _,fun behind => ?_⟩))
      rw [readGroups,if_pos small]
      rfl
    cases front with
    | nil =>
      refine .inl (stopsAt_iff.mpr (.inr ⟨([],[]),Nat.le_refl _,fun behind => ?_⟩))
      simp only [readGroups,if_neg small,List.nil_append,peekStream,Code.ok_bind,no_digit]
      rfl
    | cons ch0 rest =>
      cases zero : digit64 ch0 with
      | none =>
        refine .inl (stopsAt_iff.mpr (.inr ⟨([],ch0 :: rest),Nat.le_refl _,fun behind => ?_⟩))
        simp only [readGroups,if_neg small,List.cons_append,peekStream,Code.ok_bind,zero]
        rfl
      | some n0 =>
        obtain ⟨d0,rfl,rfl⟩ := digit64_sextet zero
        rcases group_there boundary d0 rest with ⟨ch1,ch2,ch3,more,rfl⟩ | cut | ⟨ch1,ch2,rfl,raises⟩
        · cases first : readGroup d0.bits [ch1,ch2,ch3] with
          | error stop =>
            rw [readGroup_error first] at first
            refine .inl (stopsAt_iff.mpr (.inl fun behind => ?_))
            simp only [List.cons_append,readGroups_four small,first,Code.error_bind]
          | ok read =>
            obtain ⟨g,items,value,full⟩ := readGroup_group first
            by_cases padded : read.1.2 = true
            · refine .inl (stopsAt_iff.mpr (.inr ⟨(read.1.1,more),Nat.le_add_right _ 4,fun behind => ?_⟩))
              simp only [List.cons_append,readGroups_four small,first,Code.ok_bind,if_pos padded]
              rfl
            · have three : g.bytes.length = 3 := by
                rw [← value]
                exact full (by simpa using padded)
              rcases ih (by omega : room - 3 < 3 * fuel) more with stops | ⟨groups,tail,rfl,cut,filled,large⟩
              · have later : StopsAt m more fun inp => readGroups fuel (room - 3) inp >>= fun back => pure (read.1.1 ++ back.1,back.2) := by
                  refine StopsFor.bind_value stops fun _ _ _ => ?_
                  dsimp only
                  exact stops_pure _
                refine .inl (StopsFor.after later (Nat.le_add_right _ 4) fun _ behind => ?_)
                simp only [List.cons_append,readGroups_four small,first,Code.ok_bind,if_neg padded]
              · refine .inr ⟨g :: groups,tail,?_,cut,⟨Nat.not_lt.mp small,by rw [three]; exact filled⟩,?_⟩
                · rw [List.flatMap_cons,← items]
                  rfl
                · rw [List.flatMap_cons,List.length_append,three]
                  omega
        · exact .inr ⟨[],_,rfl,cut,trivial,Nat.not_lt.mp small⟩
        · refine .inl (stopsAt_iff.mpr (.inl fun behind => ?_))
          simp only [List.cons_append,List.nil_append,readGroups_four small,raises,Code.error_bind]

/-- What a read in front of the boundary leaves is behind the groups it read. -/
theorem readBase64_left {room : Nat} {bytes : List UInt8} {left : Input}
    (reads : ∀ behind, readBase64 (front ++ m :: behind) room = .ok (bytes,left ++ m :: behind)) :
    ∃ groups : List Group, front = groups.flatMap Group.items ++ left ∧ bytes = groups.flatMap Group.bytes ∧ Filled room groups := by
  have run := reads []
  rw [readBase64,Code.require_bind_ok] at run
  obtain ⟨groups,split,value,filled,_⟩ := readGroups_groups run.2
  rw [← List.append_assoc] at split
  exact ⟨groups,List.append_cancel_right split,value,filled⟩

theorem readBase64_stops (boundary : m.marker = true) {room : Nat} (large : 3 ≤ room) (front : Input) :
    StopsAt m front (fun inp => readBase64 inp room) ∨ ∃ (groups : List Group) (tail : Input),
      front = groups.flatMap Group.items ++ tail ∧ Cut tail ∧ Filled room groups ∧ 3 ≤ room - (groups.flatMap Group.bytes).length := by
  simp only [readBase64,require_true large,Code.ok_bind]
  exact readGroups_stops boundary (by omega) front

/-- A call stops in front of the boundary, or asks for a group that it cuts off. -/
theorem readParts_stops (boundary : m.marker = true) {fuel len : Nat} {st : Reader} (short : st.buf.length ≤ 3)
    (enough : 2 * len + (if st.buf = [] then 1 else 0) < fuel) (front : Input) :
    StopsAt m front (fun inp => readParts fuel { st with inp } len) ∨ Severed st.buf.length len front := by
  induction fuel generalizing st len front with
  | zero => omega
  | succ fuel ih =>
    simp only [readParts,require_true short,Code.ok_bind]
    by_cases finished : len = 0
    · simp only [if_pos finished]
      exact .inl (stops_reader _ st)
    simp only [if_neg finished]
    by_cases part : (st.buf.take len).length < st.buf.length
    · simp only [if_pos part]
      exact .inl (stops_reader _ { st with buf := st.buf.drop len })
    have covered : st.buf.length ≤ len := by
      rw [List.length_take] at part
      omega
    have whole : st.buf.take len = st.buf := List.take_of_length_le covered
    simp only [whole,Nat.lt_irrefl,if_false]
    by_cases direct : len - st.buf.length ≥ 3
    · simp only [if_pos direct]
      rcases readBase64_stops boundary direct front with stops | ⟨groups,tail,split,cut,filled,large⟩
      · rcases stopsAt_iff.mp stops with raises | ⟨⟨bytes,left⟩,less,finishes⟩
        · refine .inl (stopsAt_iff.mpr (.inl fun behind => ?_))
          rw [raises]
          rfl
        obtain ⟨groups,split,value,filled⟩ := readBase64_left finishes
        by_cases none_ : bytes = []
        · refine .inl (StopsFor.after (stops_reader (st.buf,false) { st with buf := [] }) less fun _ behind => ?_)
          rw [finishes]
          exact if_pos none_
        · have some_ := List.length_pos_of_ne_nil none_
          rcases @ih (len - st.buf.length - bytes.length) { st with buf := [] } (by simp) (by rw [if_pos rfl]; omega) left with
            later | ⟨groups',tail,split',cut,demands⟩
          · have onward := StopsFor.map (fun more : List UInt8 × Bool => (st.buf ++ (bytes ++ more.1),more.2)) later
            refine .inl (StopsFor.after onward less fun _ behind => ?_)
            rw [finishes]
            exact if_neg none_
          · refine .inr ⟨groups ++ groups',tail,?_,cut,?_⟩
            · rw [split,List.flatMap_append,List.append_assoc,← split']
              rfl
            · rw [demands_start covered direct,demands_filled filled,← value]
              exact demands
      · refine .inr ⟨groups,tail,split,cut,?_⟩
        have asks := (@demands_filled _ groups [] filled).mpr ⟨by omega,Nat.zero_le _⟩
        rw [List.append_nil] at asks
        exact (demands_start covered direct).mpr asks
    · simp only [if_neg direct]
      rcases readBase64_stops boundary (Nat.le_refl 3) front with stops | ⟨groups,tail,split,cut,filled,large⟩
      · rcases stopsAt_iff.mp stops with raises | ⟨⟨bytes,left⟩,less,finishes⟩
        · refine .inl (stopsAt_iff.mpr (.inl fun behind => ?_))
          rw [raises]
          rfl
        obtain ⟨groups,split,value,filled⟩ := readBase64_left finishes
        by_cases none_ : bytes = []
        · refine .inl (StopsFor.after (stops_reader (st.buf,false) { st with buf := [] }) less fun _ behind => ?_)
          rw [finishes]
          exact if_pos none_
        · obtain ⟨g,rfl⟩ := filled_one filled value none_
          have size : bytes.length = g.bytes.length := by
            rw [← List.flatMap_singleton Group.bytes g,← value]
          have small := bytes_length g
          have cost : 2 * (len - st.buf.length) + (if bytes = [] then 1 else 0) < fuel := by
            rw [if_neg none_]
            by_cases empty : st.buf = []
            · rw [if_pos empty] at enough
              omega
            · have := List.length_pos_of_ne_nil empty
              omega
          rcases @ih (len - st.buf.length) { st with buf := bytes } (by rw [size]; exact small.2) cost left with
            later | ⟨groups',tail,split',cut,demands⟩
          · have onward := StopsFor.map (fun more : List UInt8 × Bool => (st.buf ++ more.1,more.2)) later
            refine .inl (StopsFor.after onward less fun _ behind => ?_)
            rw [finishes]
            exact if_neg none_
          · refine .inr ⟨g :: groups',tail,?_,cut,⟨Nat.pos_of_ne_zero finished,covered⟩,?_⟩
            · rw [split,List.flatMap_singleton,List.flatMap_cons,List.append_assoc,← split']
              rfl
            · rw [if_neg direct,← size]
              exact demands
      · have none_ : groups = [] := by
          cases groups with
          | nil => rfl
          | cons g groups =>
            have size := bytes_length g
            rw [List.flatMap_cons,List.length_append] at large
            omega
        subst none_
        exact .inr ⟨[],tail,split,cut,Nat.pos_of_ne_zero finished,covered⟩

theorem sextet_same {d d' : Sextet} (same : d.ch = d'.ch) : d = d' := by
  obtain ⟨ch,bits,valid⟩ := d
  obtain ⟨ch',bits',valid'⟩ := d'
  obtain rfl : ch = ch' := same
  obtain rfl : bits = bits' := Option.some.inj (valid.symm.trans valid')
  rfl

theorem items_same {g g' : Group} (same : g.items = g'.items) : g = g' := by
  have plain (d : Sextet) : d.ch ≠ padding ∧ padding ≠ d.ch := ⟨sextet_no_padding d,(sextet_no_padding d).symm⟩
  cases g <;> cases g' <;>
    simp only [Group.items,List.cons.injEq,Item.byte.injEq,and_true,plain,and_false,false_and] at same
  · obtain ⟨h0,h1,h2,h3⟩ := same
    rw [sextet_same h0,sextet_same h1,sextet_same h2,sextet_same h3]
  · obtain ⟨h0,h1,h2⟩ := same
    rw [sextet_same h0,sextet_same h1,sextet_same h2]
  · obtain ⟨h0,h1,_,h3⟩ := same
    rw [sextet_same h0,sextet_same h1,h3]

/-- Groups are read in one way. -/
theorem groups_front {groups read : List Group} {tail left : Input} (short : tail.length < 4)
    (same : groups.flatMap Group.items ++ tail = read.flatMap Group.items ++ left) :
    ∃ more, groups = read ++ more ∧ left = more.flatMap Group.items ++ tail := by
  induction read generalizing groups with
  | nil => exact ⟨groups,rfl,same.symm⟩
  | cons g read ih =>
    obtain ⟨a,b,c,d,four⟩ := items_four g
    cases groups with
    | nil =>
      have sizes := congrArg List.length same
      simp only [List.flatMap_nil,List.nil_append,List.flatMap_cons,four,List.length_append,List.length_cons,List.length_nil] at sizes
      omega
    | cons g' groups =>
      obtain ⟨a',b',c',d',four'⟩ := items_four g'
      rw [List.flatMap_cons,List.flatMap_cons,List.append_assoc,List.append_assoc] at same
      obtain ⟨first,later⟩ := List.append_inj same (by rw [four,four']; rfl)
      obtain ⟨more,rfl,rfl⟩ := ih later
      exact ⟨more,by rw [items_same first]; rfl,rfl⟩

/-- What begins with a digit is not at its end. -/
theorem groups_begin {tail : Input} (cut : Cut tail) (groups : List Group) (behind : Input) :
    ¬Ended (groups.flatMap Group.items ++ tail ++ behind) := by
  have digit (d : Sextet) (rest : Input) : ¬Ended (.byte d.ch :: rest) := by
    rintro ⟨ch,rest,same,none_⟩
    obtain ⟨rfl,_⟩ := List.cons.inj same
    rw [d.valid] at none_
    cases none_
  cases groups with
  | nil =>
    obtain ⟨d,rest,rfl,_⟩ := cut_starts cut
    exact digit d _
  | cons g groups => cases g <;> exact digit _ _

/-- A call that asks for a cut group goes past the boundary, or waits there. -/
theorem severed_passes {fuel len : Nat} {st : Reader} (short : st.buf.length ≤ 3)
    (enough : 2 * len + (if st.buf = [] then 1 else 0) < fuel) (severed : Severed st.buf.length len front) :
    readParts fuel { st with inp := front ++ [m] } len ≠ .error .exception ∧
      ∀ r left, readParts fuel { st with inp := front ++ [m] } len = .ok r → r.2.inp ≠ left ++ [m] := by
  obtain ⟨groups,tail,rfl,cut,demands⟩ := severed
  have pending := @readParts_pending fuel len { st with inp := groups.flatMap Group.items ++ tail ++ [m] } short enough
  simp only [Reader.pending,List.append_assoc,groups_stuck cut groups m,prepend_error] at pending ⊢
  constructor
  · intro raises
    rw [raises] at pending
    cases pending
  · intro r left run stands
    obtain ⟨⟨bytes,early⟩,next⟩ := r
    obtain ⟨read,split,stop⟩ := readParts_demands run
    simp only at split stop stands
    rw [stands,← List.append_assoc,← List.append_assoc] at split
    obtain ⟨_,rest,rfl,small⟩ := cut_starts cut
    obtain ⟨more,rfl,rfl⟩ := groups_front (by rw [List.length_cons]; omega) (List.append_cancel_right split)
    rcases stop with ended | enough_
    · rw [stands] at ended
      exact groups_begin cut more [m] ended
    · exact enough_ (demands_front demands)

/-- BASE64 data is read to the end of a group. -/
theorem jsonReadBinaryData_base64_iff (boundary : m.marker = true) {st : Reader} (base : st.encoding = .base64)
    (short : st.buf.length ≤ 3) (len : Nat) :
    StopsAt m front (fun inp => jsonReadBinaryData { st with inp } len) ↔ ¬Severed st.buf.length len front := by
  have enough : 2 * len + (if st.buf = [] then 1 else 0) < 2 * len + 2 := by
    split <;> omega
  have shape : (fun inp => jsonReadBinaryData { st with inp } len) = fun inp => readParts (2 * len + 2) { st with inp } len >>= fun r =>
      pure (r.1.1,if r.1.2 = true then r.2 else { r.2 with sizeDone := r.2.sizeDone + r.1.1.length }) := by
    funext inp
    simp only [jsonReadBinaryData,base]
  rw [shape]
  constructor
  · intro stops severed
    obtain ⟨no_raise,passes⟩ := @severed_passes m front _ len st short enough severed
    rcases stopsAt_iff.mp stops with raises | ⟨r,_,finishes⟩
    · have run := raises []
      cases parts : readParts (2 * len + 2) { st with inp := front ++ [m] } len with
      | error stop =>
        rw [parts] at run
        obtain rfl : stop = .exception := Except.error.inj run
        exact no_raise parts
      | ok read =>
        rw [parts] at run
        cases run
    · have run := finishes []
      cases parts : readParts (2 * len + 2) { st with inp := front ++ [m] } len with
      | error stop =>
        rw [parts] at run
        cases run
      | ok read =>
        rw [parts] at run
        have left := congrArg (fun r : List UInt8 × Reader => r.2.inp) (Except.ok.inj run)
        refine passes read r.2.inp parts (Eq.trans ?_ left)
        dsimp only
        split <;> rfl
  · intro clear
    refine StopsFor.bind ((readParts_stops boundary short enough front).resolve_right clear) fun r _ => ?_
    obtain ⟨⟨bytes,early⟩,next⟩ := r
    cases early with
    | true => exact stops_reader bytes next
    | false => exact stops_reader bytes { next with sizeDone := next.sizeDone + bytes.length }

end Calls

section Alloc

theorem start_fresh {inp : Input} {st : Reader} (start : jsonReadBinaryStart inp = .ok st) :
    st.sizeDone = 0 ∧ st.buf = [] ∧ (st.encoding = .base64 → readToken inp = .ok (.byte quote,st.inp)) := by
  simp only [jsonReadBinaryStart,Code.bind_ok_iff] at start
  obtain ⟨⟨ch,rest⟩,token,start⟩ := start
  simp only at start
  split at start
  · simp only [Code.bind_ok_iff] at start
    obtain ⟨⟨size,_⟩,_,_,_,same⟩ := start
    cases same
    exact ⟨rfl,rfl,by simp⟩
  · split at start
    next quoted =>
      cases start
      exact ⟨rfl,rfl,fun _ => by rw [token,quoted]⟩
    · split at start
      · simp only [Code.bind_ok_iff] at start
        obtain ⟨_,_,same⟩ := start
        cases same
        exact ⟨rfl,rfl,by simp⟩
      · cases start

theorem start_token {inp inp' : Input} (same : readToken inp = readToken inp') : jsonReadBinaryStart inp = jsonReadBinaryStart inp' := by
  simp only [jsonReadBinaryStart,same]

/-- The next item that is no white space, in front of the boundary or there. -/
theorem peek_there (boundary : m.marker = true) (front : Input) :
    (∀ behind, jsonPeek (front ++ m :: behind) = .ok (m,m :: behind) ∧ readToken (front ++ m :: behind) = .ok (m,behind)) ∨
      ∃ x left, isSpace x = false ∧ left.length < front.length ∧ ∀ behind,
        jsonPeek (front ++ m :: behind) = .ok (x,x :: (left ++ m :: behind)) ∧
          readToken (front ++ m :: behind) = .ok (x,left ++ m :: behind) := by
  induction front with
  | nil =>
    refine .inl fun behind => ⟨?_,readToken_plain (marker_space boundary) behind⟩
    simp [jsonPeek,marker_space boundary]
  | cons x front ih =>
    by_cases white : isSpace x = true
    · have skip (behind : Input) : jsonPeek (x :: front ++ m :: behind) = jsonPeek (front ++ m :: behind) ∧
          readToken (x :: front ++ m :: behind) = readToken (front ++ m :: behind) := by
        refine ⟨by simp [jsonPeek,white],?_⟩
        cases front <;> simp [readToken,readStream,ignoreWhitespace,white]
      simp only [skip]
      refine ih.imp_right ?_
      rintro ⟨y,left,plain,less,there⟩
      exact ⟨y,left,plain,Nat.lt_succ_of_lt less,there⟩
    · have plain : isSpace x = false := by simpa using white
      refine .inr ⟨x,front,plain,Nat.lt_succ_self _,fun behind => ⟨by simp [jsonPeek,plain],readToken_plain plain _⟩⟩

/-- All calls together read a block to its declared size. -/
theorem readAllocLoop_raw {calls size : Nat} {buf : List UInt8} {st : Reader} (raw : st.encoding = .binary)
    (inside : buf.length ≤ size) (enough : st.inp.length < calls) :
    readAllocLoop calls buf size st =
      if st.sizeStart - st.sizeDone ≤ st.inp.length then
        .ok (buf ++ (st.inp.take (st.sizeStart - st.sizeDone)).map Item.char,
          { st with inp := st.inp.drop (st.sizeStart - st.sizeDone), sizeDone := st.sizeDone + (st.sizeStart - st.sizeDone) })
      else .error .stuck := by
  induction calls generalizing size buf st with
  | zero => omega
  | succ calls ih =>
    have room := growBuf_room inside
    generalize grown : growBuf buf.length size = size' at room
    simp only [readAllocLoop,jsonReadBinaryData,raw,grown]
    generalize amount : min (size' - buf.length) (st.sizeStart - st.sizeDone) = n
    by_cases there : n ≤ st.inp.length
    · have taken : ((st.inp.take n).map Item.char).length = n := by
        rw [List.length_map,List.length_take]
        omega
      rw [readRaw_ok there]
      simp only [Code.ok_bind,Code.pure_eq,taken]
      by_cases none_ : n = 0
      · have all : st.sizeStart - st.sizeDone = 0 := by omega
        subst none_
        simp [all]
      · have some_ : ¬(st.inp.take n).map Item.char = [] := by
          rw [← List.length_eq_zero_iff,taken]
          exact none_
        have less : (st.inp.drop n).length < calls := by
          rw [List.length_drop]
          omega
        rw [if_neg some_,ih rfl (by rw [List.length_append,taken]; omega) less]
        have rest : st.sizeStart - (st.sizeDone + n) + n = st.sizeStart - st.sizeDone := by omega
        have total : st.sizeDone + n + (st.sizeStart - (st.sizeDone + n)) = st.sizeDone + (st.sizeStart - st.sizeDone) := by omega
        simp only [List.length_drop,List.drop_drop,total,List.append_assoc]
        by_cases fits : st.sizeStart - st.sizeDone ≤ st.inp.length
        · rw [if_pos fits,if_pos (by omega),← List.map_append,Nat.add_comm n,rest,← List.take_add,Nat.add_comm n,rest]
        · rw [if_neg fits,if_neg (by omega)]
    · rw [readRaw_stuck (by omega),if_neg (by omega)]
      rfl

/-- What `json_read_binary_start` leaves in front of the boundary is less than the declared size, or has a group cut off. -/
def Overruns (m : Item) (front : Input) : Prop :=
  ∃ st, jsonReadBinaryStart (front ++ [m]) = .ok st ∧
    ((st.encoding = .binary ∧ st.inp.length ≤ st.sizeStart) ∨
      (st.encoding = .base64 ∧ ∃ (groups : List Group) (tail : Input), st.inp = groups.flatMap Group.items ++ (tail ++ [m]) ∧ Cut tail))

/-- The groups up to the boundary are read, or one is cut off. -/
theorem readWhole_stops (boundary : m.marker = true) (front : Input) :
    StopsAt m front readWhole ∨ ∃ (groups : List Group) (tail : Input), front = groups.flatMap Group.items ++ tail ∧ Cut tail := by
  have no_digit : digit64 m = none := by
    cases m with
    | byte ch => cases boundary
    | eom | eos => rfl
  have here {left : Input} (ended : ∀ behind, Ended (left ++ m :: behind)) : StopsAt m left readWhole :=
    stopsAt_iff.mpr (.inr ⟨([],left),Nat.le_refl _,fun behind => readWhole_ended (ended behind)⟩)
  induction h : front.length using Nat.strongRecOn generalizing front with
  | ind n ih =>
    cases front with
    | nil => exact .inl (here fun behind => ⟨m,behind,rfl,no_digit⟩)
    | cons ch0 rest =>
      cases zero : digit64 ch0 with
      | none => exact .inl (here fun behind => ⟨ch0,rest ++ m :: behind,rfl,zero⟩)
      | some n0 =>
        obtain ⟨d0,rfl,rfl⟩ := digit64_sextet zero
        rcases group_there boundary d0 rest with ⟨ch1,ch2,ch3,more,rfl⟩ | cut | ⟨ch1,ch2,rfl,raises⟩
        · cases first : readGroup d0.bits [ch1,ch2,ch3] with
          | error stop =>
            rw [readGroup_error first] at first
            refine .inl (stopsAt_iff.mpr (.inl fun behind => ?_))
            simp only [List.cons_append,readWhole,zero,first,Code.error_bind]
          | ok read =>
            obtain ⟨g,items,value,_⟩ := readGroup_group first
            rcases ih more.length (by simp only [List.length_cons] at h; omega) more rfl with stops | ⟨groups,tail,rfl,cut⟩
            · have later : StopsAt m more fun inp => readWhole inp >>= fun back => pure (read.1.1 ++ back.1,back.2) := by
                refine StopsFor.bind_value stops fun _ _ _ => ?_
                dsimp only
                exact stops_pure _
              refine .inl (StopsFor.after later (Nat.le_add_right _ 4) fun _ behind => ?_)
              simp only [List.cons_append,readWhole,zero,first,Code.ok_bind]
            · refine .inr ⟨g :: groups,tail,?_,cut⟩
              rw [List.flatMap_cons,← items]
              rfl
        · exact .inr ⟨[],_,rfl,cut⟩
        · refine .inl (stopsAt_iff.mpr (.inl fun behind => ?_))
          simp only [List.cons_append,List.nil_append,readWhole,zero,raises,Code.error_bind]

/-- What is done behind `json_read_binary_start`. -/
def allocData (calls bufSize : Nat) (st : Reader) : Code (Option (List UInt8) × Input) := do
  let (buf,st) ← readAllocLoop calls [] bufSize st
  require (st.sizeStart = 0 ∨ buf.length = st.sizeStart)
  let inp ← jsonReadBinaryEnd st
  pure (some buf,inp)

theorem allocData_raw {calls : Nat} {st : Reader} (bufSize : Nat) (raw : st.encoding = .binary) (fresh : st.sizeDone = 0)
    (empty : st.buf = []) (enough : st.inp.length < calls) :
    allocData calls bufSize st =
      if st.sizeStart ≤ st.inp.length then .ok (some ((st.inp.take st.sizeStart).map Item.char),st.inp.drop st.sizeStart)
      else .error .stuck := by
  rw [allocData,readAllocLoop_raw raw (Nat.zero_le _) enough,fresh]
  simp only [Nat.sub_zero,Nat.zero_add,List.nil_append]
  by_cases there : st.sizeStart ≤ st.inp.length
  · simp [there,jsonReadBinaryEnd,empty,raw,require_true]
  · rw [if_neg there,if_neg there]
    rfl

section Outcomes

variable {read : Input → Code (Option (List UInt8) × Input)} {left : Input}

theorem block_stops_iff {size : Nat} (less : left.length ≤ front.length)
    (run : ∀ behind, read (front ++ m :: behind) = if size ≤ (left ++ m :: behind).length then
      .ok (some (((left ++ m :: behind).take size).map Item.char),(left ++ m :: behind).drop size) else .error .stuck) :
    StopsAt m front read ↔ size ≤ left.length := by
  have length (behind : Input) : (left ++ m :: behind).length = left.length + (behind.length + 1) := by
    rw [List.length_append,List.length_cons]
  constructor
  · intro stops
    by_contra outruns
    have last := run []
    rw [length,List.length_nil,Nat.zero_add] at last
    by_cases there : size ≤ left.length + 1
    · have all : (left ++ [m]).drop size = [] := List.drop_eq_nil_of_le (by rw [length,List.length_nil]; omega)
      rw [if_pos there,all] at last
      rcases stopsAt_iff.mp stops with raises | ⟨r,_,ends⟩
      · rw [raises] at last
        cases last
      · have rest := congrArg Prod.snd (Except.ok.inj ((ends []).symm.trans last))
        exact absurd rest (List.append_ne_nil_of_right_ne_nil _ (List.cons_ne_nil m []))
    · rw [if_neg there] at last
      rcases stopsAt_iff.mp stops with raises | ⟨r,_,ends⟩
      · rw [raises] at last
        cases last
      · rw [ends] at last
        cases last
  · intro there
    refine stopsAt_iff.mpr (.inr ⟨(some ((left.take size).map Item.char),left.drop size),?_,fun behind => ?_⟩)
    · exact Nat.le_trans (List.length_drop.le.trans (Nat.sub_le _ _)) less
    · rw [run,if_pos (by rw [length]; omega),List.take_append_of_le_length there,List.drop_append_of_le_length there]
      rfl

theorem groups_stop_iff (boundary : m.marker = true) (less : left.length ≤ front.length)
    (run : ∀ behind, read (front ++ m :: behind) =
      readWhole (left ++ m :: behind) >>= fun read => jsonTestChar quote read.2 >>= fun rest => pure (some read.1,rest)) :
    StopsAt m front read ↔ ¬∃ (groups : List Group) (tail : Input), left = groups.flatMap Group.items ++ tail ∧ Cut tail := by
  constructor
  · rintro stops ⟨groups,tail,rfl,cut⟩
    have last := run []
    rw [List.append_assoc,groups_stuck cut groups m] at last
    rcases stopsAt_iff.mp stops with raises | ⟨r,_,ends⟩
    · rw [raises] at last
      cases last
    · rw [ends] at last
      cases last
  · intro whole
    have closed : StopsAt m left fun inp => readWhole inp >>= fun read => jsonTestChar quote read.2 >>= fun rest =>
        (pure (some read.1,rest) : Code (Option (List UInt8) × Input)) := by
      refine StopsFor.bind_value ((readWhole_stops boundary left).resolve_right whole) fun bytes _ _ => ?_
      dsimp only
      exact StopsFor.bind_rest (jsonTestChar_stops boundary _) fun _ _ => stops_pure _
    exact StopsFor.after closed less fun _ behind => run behind

end Outcomes

theorem overruns_iff {st : Reader} (start : jsonReadBinaryStart (front ++ [m]) = .ok { st with inp := st.inp ++ [m] }) :
    Overruns m front ↔ (st.encoding = .binary ∧ st.inp.length < st.sizeStart) ∨
      (st.encoding = .base64 ∧ ∃ (groups : List Group) (tail : Input), st.inp = groups.flatMap Group.items ++ tail ∧ Cut tail) := by
  have size : (st.inp ++ [m]).length = st.inp.length + 1 := by simp
  constructor
  · rintro ⟨st',run,outruns⟩
    obtain rfl : { st with inp := st.inp ++ [m] } = st' := Except.ok.inj (start.symm.trans run)
    refine outruns.imp (fun raw => ⟨raw.1,?_⟩) fun base => ⟨base.1,?_⟩
    · have long : (st.inp ++ [m]).length ≤ st.sizeStart := raw.2
      omega
    · obtain ⟨groups,tail,split,cut⟩ := base.2
      rw [← List.append_assoc] at split
      exact ⟨groups,tail,List.append_cancel_right split,cut⟩
  · intro outruns
    refine ⟨_,start,outruns.imp (fun raw => ⟨raw.1,?_⟩) fun base => ⟨base.1,?_⟩⟩
    · change (st.inp ++ [m]).length ≤ st.sizeStart
      omega
    · obtain ⟨groups,tail,split,cut⟩ := base.2
      refine ⟨groups,tail,?_,cut⟩
      change st.inp ++ [m] = _
      rw [split,List.append_assoc]

theorem not_overruns {front : Input} {stop : Stop} (fails : jsonReadBinaryStart (front ++ [m]) = .error stop) : ¬Overruns m front := by
  rintro ⟨st,run,_⟩
  rw [fails] at run
  cases run

theorem null_not_overruns (boundary : m.marker = true) {left : Input}
    (token : readToken (front ++ [m]) = .ok (.byte 0x6e,left ++ [m])) : ¬Overruns m front := by
  have other : ¬(Item.byte 0x6e = .byte 0x28) ∧ ¬(Item.byte 0x6e = .byte quote) := by decide
  rintro ⟨st,run,outruns⟩
  simp only [jsonReadBinaryStart,token,Code.ok_bind,other.1,other.2,if_false,if_true,Code.bind_ok_iff] at run
  obtain ⟨rest,null,same⟩ := run
  cases same
  rcases outruns with ⟨_,short⟩ | ⟨base,_⟩
  · have stops : StopsAt m left testUll := testUll_stops boundary
    rcases stopsAt_iff.mp stops with raises | ⟨r,_,finishes⟩
    · rw [raises] at null
      cases null
    · have some_ : rest = r ++ [m] := Except.ok.inj (null.symm.trans (finishes []))
      simp [some_] at short
  · cases base

/-- Data without an end is read past the boundary. -/
theorem jsonReadAllocBinary_iff (boundary : m.marker = true) (bufSize : Nat) :
    StopsAt m front (fun inp => jsonReadAllocBinary (inp.length + 1) bufSize inp) ↔ ¬Overruns m front := by
  rcases peek_there boundary front with at_ | ⟨x,left,plain,less,there⟩
  · -- nothing but white space in front of the boundary
    refine iff_of_true (stopsAt_iff.mpr (.inl fun behind => ?_)) (@not_overruns _ _ .exception ?_)
    · simp [jsonReadAllocBinary,(at_ behind).1,marker_byte boundary,jsonReadBinaryStart,readToken_plain (marker_space boundary)]
    · simp [jsonReadBinaryStart,(at_ []).2,marker_byte boundary]
  by_cases null : x = .byte 0x6e
  · subst null
    refine iff_of_true ?_ (null_not_overruns boundary (there []).2)
    have stops : StopsAt m left fun inp => testUll inp >>= fun inp => (pure (none,inp) : Code (Option (List UInt8) × Input)) :=
      StopsFor.bind_rest (testUll_stops boundary) fun _ _ => stops_pure _
    refine StopsFor.after stops (Nat.le_of_lt less) fun _ behind => ?_
    simp only [jsonReadAllocBinary,(there behind).1,Code.ok_bind,if_true,List.tail_cons]
  have peeled (behind : Input) : jsonReadAllocBinary ((front ++ m :: behind).length + 1) bufSize (front ++ m :: behind) =
      jsonReadBinaryStart (front ++ m :: behind) >>= allocData ((front ++ m :: behind).length + 1) bufSize := by
    have token : readToken (x :: (left ++ m :: behind)) = readToken (front ++ m :: behind) := by
      rw [readToken_plain plain,(there behind).2]
    rw [← start_token token]
    simp only [jsonReadAllocBinary,(there behind).1,Code.ok_bind,if_neg null]
    rfl
  have start : StopsAt m front jsonReadBinaryStart := jsonReadBinaryStart_stops boundary
  rcases stopsAt_iff.mp start with raises | ⟨st,short,finishes⟩
  · refine iff_of_true (stopsAt_iff.mpr (.inl fun behind => ?_)) (not_overruns (raises []))
    rw [peeled,raises]
    rfl
  rw [overruns_iff (finishes [])]
  obtain ⟨fresh,empty,_⟩ := start_fresh (finishes [])
  cases encoding : st.encoding with
  | binary =>
    simp only [true_and,reduceCtorEq,false_and,or_false,Nat.not_lt]
    refine block_stops_iff short fun behind => ?_
    rw [peeled,finishes]
    refine allocData_raw bufSize encoding fresh empty ?_
    have short : st.inp.length ≤ front.length := short
    change (st.inp ++ m :: behind).length < _
    simp only [List.length_append,List.length_cons]
    omega
  | base64 =>
    have quoted (behind : Input) : x = .byte quote ∧ left ++ m :: behind = st.inp ++ m :: behind := by
      have token := (start_fresh (finishes behind)).2.2 encoding
      rw [(there behind).2] at token
      have both := Except.ok.inj token
      exact ⟨congrArg Prod.fst both,congrArg Prod.snd both⟩
    obtain rfl := (quoted []).1
    have same : left = st.inp := List.append_cancel_right (quoted []).2
    simp only [true_and,reduceCtorEq,false_and,false_or,← same]
    refine groups_stop_iff boundary (Nat.le_of_lt less) fun behind => ?_
    refine jsonReadAllocBinary_quoted bufSize (there behind).1 ?_
    simp only [List.length_append,List.length_cons]
    omega

end Alloc

/-- The readers that stop at the boundary whatever is in front of it. Those that are given call-backs do when the call-backs do;
binary data is ended when all of it was read. -/
structure AlwaysStop (m : Item) (front : Input) : Prop where
  string : ∀ str, StopsAt m front fun inp => jsonReadString inp str
  allocString : StopsAt m front jsonReadAllocString
  allocStringArray : StopsAt m front jsonReadAllocStringArray
  boolean : StopsAt m front jsonReadBoolean
  long : StopsAt m front jsonReadLong
  ulong : StopsAt m front jsonReadUlong
  int64 : StopsAt m front jsonReadInt64
  uint64 : StopsAt m front jsonReadUint64
  double : ∀ {δ : Type} (strToDouble : List UInt8 → δ × Nat), StopsAt m front (jsonReadDouble strToDouble)
  struct : ∀ {τ : Type} (callBack : List UInt8 → τ → Input → Code (τ × Input)),
    (∀ name st left, StopsAt m left (callBack name st)) → ∀ st, StopsAt m front (jsonReadStruct callBack st)
  array : ∀ {τ : Type} (callBack : τ → Input → Code (τ × Input)),
    (∀ st left, StopsAt m left (callBack st)) → ∀ st, StopsAt m front (jsonReadArray callBack st)
  object : StopsAt m front jsonReadObject
  skipObject : StopsAt m front jsonSkipObject
  binaryStart : StopsAt m front jsonReadBinaryStart
  binaryEnd : ∀ st : Reader, (st.encoding = .binary → st.sizeStart = st.sizeDone) →
    StopsAt m front fun inp => jsonReadBinaryEnd { st with inp }
  peek : StopsAt m front jsonPeek
  testChar : ∀ x, StopsAt m front (jsonTestChar x)
  testEom : StopsAt m front jsonTestEom ∨ (front = [] ∧ m = .eom ∧ ∀ behind, jsonTestEom (m :: behind) = .ok behind)
  errorObject : ∀ setErrno, StopsAt m front (readErrorObject setErrno)
  errno : ∀ setErrno, StopsAt m front (CodeAreas.readErrno (readErrorObject setErrno))

theorem jsonPeek_stops (boundary : m.marker = true) : StopsAt m front jsonPeek := by
  rcases peek_there boundary front with at_ | ⟨x,left,_,less,there⟩
  · exact stopsAt_iff.mpr (.inr ⟨(m,[]),Nat.zero_le _,fun behind => (at_ behind).1⟩)
  · exact stopsAt_iff.mpr (.inr ⟨(x,x :: left),less,fun behind => (there behind).1⟩)

theorem jsonTestEom_stops (m : Item) (front : Input) :
    StopsAt m front jsonTestEom ∨ (front = [] ∧ m = .eom ∧ ∀ behind, jsonTestEom (m :: behind) = .ok behind) := by
  cases front with
  | nil =>
    by_cases same : m = .eom
    · exact .inr ⟨rfl,same,fun behind => by simp [jsonTestEom,readStream,same]⟩
    · exact .inl (stopsAt_iff.mpr (.inl fun behind => by simp [jsonTestEom,readStream,same]))
  | cons x left =>
    by_cases same : x = .eom
    · refine .inl (stopsAt_iff.mpr (.inr ⟨left,Nat.le_succ _,fun behind => ?_⟩))
      simp [jsonTestEom,readStream,same]
      rfl
    · exact .inl (stopsAt_iff.mpr (.inl fun behind => by simp [jsonTestEom,readStream,same]))

/-- The readers that copy without looking go past the boundary just when the data has no end in front of it. -/
theorem readers_stop (boundary : m.marker = true) (front : Input) :
    AlwaysStop m front ∧
    (∀ (st : Reader) len, st.encoding = .binary →
      (StopsAt m front (fun inp => jsonReadBinaryData { st with inp } len) ↔ min len (st.sizeStart - st.sizeDone) ≤ front.length)) ∧
    (∀ (st : Reader) len, st.encoding = .base64 → st.buf.length ≤ 3 →
      (StopsAt m front (fun inp => jsonReadBinaryData { st with inp } len) ↔ ¬Severed st.buf.length len front)) ∧
    ∀ bufSize, StopsAt m front (fun inp => jsonReadAllocBinary (inp.length + 1) bufSize inp) ↔ ¬Overruns m front := by
  refine ⟨?_,fun st len raw => jsonReadBinaryData_raw_iff raw len,
    fun st len base short => jsonReadBinaryData_base64_iff boundary base short len,jsonReadAllocBinary_iff boundary⟩
  exact {
    string := jsonReadString_stops boundary
    allocString := jsonReadAllocString_stops boundary
    allocStringArray := jsonReadAllocStringArray_stops boundary
    boolean := jsonReadBoolean_stops boundary
    long := jsonReadLong_stops boundary
    ulong := jsonReadUlong_stops boundary
    int64 := jsonReadLong_stops boundary
    uint64 := jsonReadUint64_stops boundary
    double := jsonReadDouble_stops boundary
    struct := fun _ members => jsonReadStruct_stops boundary members
    array := fun _ items => jsonReadArray_stops boundary items
    object := jsonReadObject_stops boundary
    skipObject := jsonSkipObject_stops boundary
    binaryStart := jsonReadBinaryStart_stops boundary
    binaryEnd := fun _ read => jsonReadBinaryEnd_stops boundary read
    peek := jsonPeek_stops boundary
    testChar := jsonTestChar_stops boundary
    testEom := jsonTestEom_stops m front
    errorObject := readErrorObject_stops boundary
    errno := readErrno_stops boundary }

/-- A block of five bytes of which two are there. -/
theorem readers_stop_block :
    StopsAt .eom ([0x28,0x35,0x29,0x61,0x62].map .byte) (fun inp => jsonReadAllocBinary (inp.length + 1) 0 inp) ↔
      ¬Overruns .eom ([0x28,0x35,0x29,0x61,0x62].map .byte) :=
  (readers_stop (m := .eom) rfl ([0x28,0x35,0x29,0x61,0x62].map .byte)).2.2.2 0

/-- The end of the message is read as a byte of the block, and the next message as the others. A marker is also taken for the
padding of a BASE64 group. -/
theorem marker_read_as_data :
    jsonReadAllocBinary 20 0 ([0x28,0x35,0x29,0x61,0x62].map .byte ++ .eom :: [0x45,0x00].map .byte) =
      .ok (some [0x61,0x62,0xff,0x45,0x00],[]) ∧
    ¬StopsAt .eom ([0x28,0x35,0x29,0x61,0x62].map .byte) (fun inp => jsonReadAllocBinary (inp.length + 1) 0 inp) ∧
    jsonReadAllocBinary 20 0 ([0x22,0x51,0x51,0x3d].map .byte ++ .eom :: [0x22].map .byte) = .ok (some [0x41],[]) := by
  have block : jsonReadAllocBinary 9 0 ([0x28,0x35,0x29,0x61,0x62].map .byte ++ .eom :: [0x45,0x00].map .byte) =
      .ok (some [0x61,0x62,0xff,0x45,0x00],[]) := by decide +kernel
  refine ⟨by decide +kernel,fun stops => ?_,by decide +kernel⟩
  rcases stopsAt_iff.mp stops with raises | ⟨r,_,ends⟩
  · cases (raises ([0x45,0x00].map .byte)).symm.trans block
  · have rest := congrArg Prod.snd (Except.ok.inj ((ends ([0x45,0x00].map .byte)).symm.trans block))
    exact absurd rest (List.append_ne_nil_of_right_ne_nil _ (List.cons_ne_nil _ _))

end Tcf.Json
