import Tcf.ArrayIndex

/-! Which elements `op_index` takes from inside a loaded value, and whole. -/
namespace Tcf.ArrayIndex

variable {k x : Nat} {buf : List UInt8} {stop : Stop}

section Bits

theorem testBit_set (b : UInt8) {j : Nat} (bounded : k < 8) :
    (b ||| 1 <<< UInt8.ofNat k).toNat.testBit j = (b.toNat.testBit j || decide (j = k)) := by
  have amount : (UInt8.ofNat k).toNat = k := by
    rw [UInt8.toNat_ofNat']
    omega
  have shifted : (1 <<< UInt8.ofNat k : UInt8).toNat = 2 ^ k := by
    rw [UInt8.toNat_shiftLeft,amount,Nat.mod_eq_of_lt bounded,UInt8.toNat_one,Nat.one_shiftLeft]
    exact Nat.mod_eq_of_lt (Nat.pow_lt_pow_right (by decide) bounded)
  rw [UInt8.toNat_or,Nat.testBit_or,shifted,Nat.testBit_two_pow]
  simp only [eq_comm]

theorem bitOf_beyond {value : List UInt8} (beyond : value.length * 8 ≤ k) : bitOf value k = false := by
  rw [bitOf,List.getElem?_eq_none (by omega)]
  rfl

theorem bitOf_zeros (n k : Nat) : bitOf (List.replicate n 0) k = false := by
  simp only [bitOf,List.getElem?_replicate]
  split <;> simp

/-- A write inside the buffer sets one bit. -/
theorem writeBit_inside (inside : x / 8 < buf.length) :
    ∃ buf', writeBit buf x = .ok buf' ∧ buf'.length = buf.length ∧ ∀ k, bitOf buf' k = (bitOf buf k || decide (k = x)) := by
  have there : buf[x / 8]? = some buf[x / 8] := List.getElem?_eq_getElem inside
  refine ⟨buf.set (x / 8) (buf[x / 8] ||| 1 <<< UInt8.ofNat (x % 8)),?_,List.length_set,fun k => ?_⟩
  · simp only [writeBit,there]
  · simp only [bitOf,List.getElem?_set]
    split
    · rename_i same
      have bits : decide (k = x) = decide (k % 8 = x % 8) := decide_eq_decide.mpr (by omega)
      rw [← same,there,bits]
      exact testBit_set _ (by omega)
    · rename_i other
      have differ : decide (k = x) = false := decide_eq_false (by rintro rfl; exact other rfl)
      rw [differ,Bool.or_false]

theorem writeBit_outside (outside : buf.length ≤ x / 8) : writeBit buf x = .error .outside := by
  rw [writeBit,List.getElem?_eq_none outside]

theorem writeBit_stops (run : writeBit buf x = .error stop) : stop = .outside := by
  rcases Nat.lt_or_ge (x / 8) buf.length with inside | outside
  · obtain ⟨_,write,_⟩ := writeBit_inside inside
    cases write.symm.trans run
  · rw [writeBit_outside outside] at run
    cases run
    rfl

end Bits

section Loops

variable {a : Access}

/-- A round of the loop stays inside the value and the buffer. -/
def Access.Round (a : Access) (x : Nat) : Prop :=
  a.position x / 8 < a.loaded.length ∧ (bitOf a.loaded (a.position x) → x / 8 < a.size.toNat)

theorem copyBits_round (run : a.copyBits x = .ok buf) (inside : a.position x / 8 < a.loaded.length) :
    a.copyBits (x + 1) = if bitOf a.loaded (a.position x) then writeBit buf x else .ok buf := by
  have there : a.loaded[a.position x / 8]? = some a.loaded[a.position x / 8] := List.getElem?_eq_getElem inside
  have read : bitOf a.loaded (a.position x) = a.loaded[a.position x / 8].toNat.testBit (a.position x % 8) := by
    simp only [bitOf,there,Option.any_some]
  rw [Access.copyBits,run,read]
  simp only [there]
  rfl

theorem decide_below (k x : Nat) : decide (k < x + 1) = (decide (k < x) || decide (k = x)) := by
  rw [← Bool.decide_or]
  exact decide_eq_decide.mpr (by omega)

theorem copyBits_inside (n : Nat) (rounds : ∀ x < n, a.Round x) : ∃ buf, a.copyBits n = .ok buf ∧
    buf.length = a.size.toNat ∧ ∀ k, bitOf buf k = (decide (k < n) && bitOf a.loaded (a.position k)) := by
  induction n with
  | zero => exact ⟨_,rfl,List.length_replicate,fun k => by simp [bitOf_zeros]⟩
  | succ x ih =>
    obtain ⟨buf,run,length,bits⟩ := ih fun k below => rounds k (by omega)
    obtain ⟨inside,fits⟩ := rounds x (by omega)
    rw [copyBits_round run inside]
    cases bit : bitOf a.loaded (a.position x) with
    | true =>
      obtain ⟨buf',write,same,set⟩ := writeBit_inside (show x / 8 < buf.length from length ▸ fits bit)
      refine ⟨buf',write,same.trans length,fun k => ?_⟩
      rw [set,bits,decide_below]
      by_cases here : k = x
      · simp [here,bit]
      · simp [here]
    | false =>
      refine ⟨buf,rfl,length,fun k => ?_⟩
      rw [bits,decide_below]
      by_cases here : k = x
      · simp [here,bit]
      · simp [here]

variable {n : Nat}

/-- A loop that has come to its end has had its rounds inside. -/
theorem copyBits_rounds (run : a.copyBits n = .ok buf) : ∀ x < n, a.Round x := by
  induction n generalizing buf with
  | zero => intro x below; omega
  | succ x ih =>
    intro k below
    cases before : a.copyBits x with
    | error stop =>
      rw [Access.copyBits,before] at run
      cases run
    | ok buf' =>
      have rounds := ih before
      rcases Nat.lt_succ_iff_lt_or_eq.mp below with earlier | rfl
      · exact rounds k earlier
      · obtain ⟨buf'',again,length,_⟩ := copyBits_inside k rounds
        cases before.symm.trans again
        by_cases inside : a.position k / 8 < a.loaded.length
        · refine ⟨inside,fun bit => ?_⟩
          rw [copyBits_round before inside,if_pos bit] at run
          by_contra outside
          rw [writeBit_outside (by omega)] at run
          cases run
        · rw [Access.copyBits,before] at run
          simp only [List.getElem?_eq_none (Nat.le_of_not_lt inside)] at run
          cases run

/-- Every stop of the loop is a use of memory outside. -/
theorem copyBits_stops (run : a.copyBits n = .error stop) : stop = .outside := by
  induction n with
  | zero => cases run
  | succ x ih =>
    cases before : a.copyBits x with
    | error stop' =>
      rw [Access.copyBits,before] at run
      cases run
      exact ih before
    | ok buf =>
      by_cases inside : a.position x / 8 < a.loaded.length
      · rw [copyBits_round before inside] at run
        split at run
        · exact writeBit_stops run
        · cases run
      · rw [Access.copyBits,before] at run
        simp only [List.getElem?_eq_none (Nat.le_of_not_lt inside)] at run
        cases run
        rfl

/-- The bits that the extension of the sign writes -/
theorem extendSign_inside (n : Nat) (fits : a.stride.toNat + n ≤ buf.length * 8) :
    ∃ buf', a.extendSign buf n = .ok buf' ∧ buf'.length = buf.length ∧
      ∀ k, bitOf buf' k = (bitOf buf k || decide (a.stride.toNat ≤ k ∧ k < a.stride.toNat + n)) := by
  induction n with
  | zero => exact ⟨buf,rfl,rfl,fun k => by simp⟩
  | succ n ih =>
    obtain ⟨buf',run,length,bits⟩ := ih (by omega)
    obtain ⟨buf'',write,same,set⟩ := writeBit_inside (show (a.stride.toNat + n) / 8 < buf'.length by omega)
    refine ⟨buf'',?_,same.trans length,fun k => ?_⟩
    · rw [Access.extendSign,run]
      exact write
    · rw [set,bits,Bool.or_assoc,← Bool.decide_or]
      congr 1
      exact decide_eq_decide.mpr (by omega)

theorem extendSign_bits {buf' : List UInt8} (run : a.extendSign buf n = .ok buf')
    (other : a.stride.toNat + n ≤ k) : bitOf buf' k = bitOf buf k := by
  induction n generalizing buf' with
  | zero =>
    cases run
    rfl
  | succ n ih =>
    cases before : a.extendSign buf n with
    | error stop =>
      rw [Access.extendSign,before] at run
      cases run
    | ok buf1 =>
      rw [Access.extendSign,before] at run
      rcases Nat.lt_or_ge ((a.stride.toNat + n) / 8) buf1.length with inside | outside
      · obtain ⟨buf2,write,_,set⟩ := writeBit_inside inside
        cases write.symm.trans run
        rw [set,ih before (by omega),decide_eq_false (by omega),Bool.or_false]
      · cases (writeBit_outside outside).symm.trans run

theorem extendSign_stops (run : a.extendSign buf n = .error stop) : stop = .outside := by
  induction n with
  | zero => cases run
  | succ n ih =>
    cases before : a.extendSign buf n with
    | error stop' =>
      rw [Access.extendSign,before] at run
      cases run
      exact ih before
    | ok buf' =>
      rw [Access.extendSign,before] at run
      exact writeBit_stops run

/-- The sign is read from the highest bit of the stride. -/
theorem signed_short (strided : 0 < a.stride.toNat) (short : a.stride.toNat ≤ buf.length * 8) :
    a.signed buf = if bitOf buf (a.stride.toNat - 1) then
        if 2 ^ 32 ≤ a.bitCount then .error .endless else a.extendSign buf (a.bitCount - a.stride.toNat)
      else .ok buf := by
  have inside : (a.stride.toNat - 1) / 8 < buf.length := by omega
  simp only [Access.signed,bitOf,List.getElem?_eq_getElem inside,Option.any_some]

theorem signed_long (long : buf.length * 8 < a.stride.toNat) : a.signed buf = .error .outside := by
  simp only [Access.signed,List.getElem?_eq_none (show buf.length ≤ (a.stride.toNat - 1) / 8 by omega)]

theorem signed_stops {raise : Raise} : a.signed buf ≠ .error (.raised raise) := by
  intro run
  simp only [Access.signed] at run
  split at run
  · split at run
    · split at run
      · cases run
      · cases extendSign_stops run
    · cases run
  · cases run

theorem extended_stops {raise : Raise} : a.extended buf ≠ .error (.raised raise) := by
  rw [Access.extended]
  split
  · exact signed_stops
  · exact nofun

end Loops

section Elements

variable {a : Access}

/-- Where the bits of the element begin -/
def Access.start (a : Access) : Nat := a.distance * a.stride.toNat

/-- What an element of a signed type has beyond its stride -/
def Access.sign (a : Access) : Bool := a.typeClass = .integer && bitOf a.loaded (a.start + (a.stride.toNat - 1))

/-- The element comes from its own place in the loaded value, all of it inside, or there is an error report. -/
def Access.Exact (a : Access) : Code Element → Prop
  | .ok (.remote _) => True
  | .ok (.bytes offset value) => offset = a.distance * a.size.toNat ∧ offset + a.size.toNat ≤ a.loaded.length ∧
      value = (a.loaded.drop offset).take a.size.toNat
  | .ok (.bits taken value) => taken = (List.range a.stride.toNat).map (a.start + ·) ∧ (∀ y ∈ taken, y < a.loaded.length * 8) ∧
      value.length = a.size.toNat ∧ ∀ x, bitOf value x =
        if x < a.stride.toNat then bitOf a.loaded (a.start + x) else a.sign && decide (x < a.size.toNat * 8)
  | .error (.raised _) => True
  | .error _ => False

/-- The element is inside the value, and the buffer has room for it. -/
def Access.Fits (a : Access) : Prop :=
  if a.stride = 0 then a.distance * a.size.toNat + a.size.toNat ≤ a.loaded.length ∧ a.distance * a.size.toNat < 2 ^ 64
  else a.start + a.stride.toNat ≤ a.loaded.length * 8 ∧ a.start + a.stride.toNat ≤ 2 ^ 32 ∧
    (a.size.toNat * 8 < a.stride.toNat → a.typeClass ≠ .integer ∧
      ∀ x < a.stride.toNat, a.size.toNat * 8 ≤ x → bitOf a.loaded (a.start + x) = false) ∧
    (a.sign = true → a.size.toNat * 8 < 2 ^ 32)

theorem position_start (x : Nat) : a.position x = (a.start + x) % 2 ^ 32 := by
  simp only [Access.position,Access.start]
  omega

theorem take_bytes (plain : a.stride = 0) : a.Exact a.take ↔ a.Fits := by
  simp only [Access.take,Access.Fits,if_pos plain]
  split
  · rename_i inside
    simp only [Access.Exact]
    constructor
    · rintro ⟨offset,within,_⟩
      exact ⟨offset ▸ within,by omega⟩
    · rintro ⟨within,small⟩
      simp only [Nat.mod_eq_of_lt small,within,and_self]
  · rename_i outside
    simp only [Access.Exact,false_iff]
    rintro ⟨within,small⟩
    rw [Nat.mod_eq_of_lt small] at outside
    exact outside within

theorem take_strided (strided : a.stride ≠ 0) : a.take = a.copyBits a.stride.toNat >>= fun buf => a.extended buf >>= fun buf =>
    .ok (.bits ((List.range a.stride.toNat).map a.position) buf) := by
  rw [Access.take,if_neg strided]
  rfl

theorem stride_positive (strided : a.stride ≠ 0) : 0 < a.stride.toNat :=
  Nat.pos_of_ne_zero fun zero => strided (UInt32.toNat_inj.mp zero)

theorem sign_integer (sign : a.sign = true) : a.typeClass = .integer ∧ bitOf a.loaded (a.start + (a.stride.toNat - 1)) = true := by
  simpa [Access.sign] using sign

theorem take_inside (strided : a.stride ≠ 0) (fits : a.Fits) : a.Exact a.take := by
  have positive := stride_positive strided
  rw [Access.Fits,if_neg strided] at fits
  obtain ⟨within,small,room,ends⟩ := fits
  have place {x : Nat} (below : x < a.stride.toNat) : a.position x = a.start + x := by
    rw [position_start]
    omega
  have rounds : ∀ x < a.stride.toNat, a.Round x := by
    intro x below
    rw [Access.Round,place below]
    refine ⟨by omega,fun bit => ?_⟩
    by_contra beyond
    rcases Nat.lt_or_ge x (a.size.toNat * 8) with low | high
    · omega
    · rw [(room (by omega)).2 x below high] at bit
      cases bit
  obtain ⟨buf,run,length,bits⟩ := copyBits_inside a.stride.toNat rounds
  have taken : (List.range a.stride.toNat).map a.position = (List.range a.stride.toNat).map (a.start + ·) :=
    List.map_congr_left fun x member => place (List.mem_range.mp member)
  have whole : ∀ y ∈ (List.range a.stride.toNat).map (a.start + ·), y < a.loaded.length * 8 := by
    intro y member
    obtain ⟨x,below,rfl⟩ := List.mem_map.mp member
    have := List.mem_range.mp below
    omega
  have low (x : Nat) : bitOf buf x = if x < a.stride.toNat then bitOf a.loaded (a.start + x) else false := by
    rw [bits]
    split
    · rename_i below
      rw [place below,decide_eq_true below,Bool.true_and]
    · rename_i above
      rw [decide_eq_false above,Bool.false_and]
  rw [take_strided strided,run]
  change a.Exact (a.extended buf >>= fun buf => .ok (.bits ((List.range a.stride.toNat).map a.position) buf))
  by_cases integer : a.typeClass = .integer
  · have short : a.stride.toNat ≤ a.size.toNat * 8 := by
      by_contra long
      exact (room (by omega)).1 integer
    have top : bitOf buf (a.stride.toNat - 1) = a.sign := by
      rw [low,if_pos (by omega),Access.sign,decide_eq_true integer,Bool.true_and]
    rw [Access.extended,if_pos integer,signed_short positive (length ▸ short),top]
    cases sign : a.sign with
    | false => exact ⟨taken,taken ▸ whole,length,fun x => by simp [low,sign]⟩
    | true =>
      have limit := ends sign
      have count : a.bitCount = a.size.toNat * 8 := Nat.mod_eq_of_lt (by omega)
      have fits : a.stride.toNat + (a.bitCount - a.stride.toNat) ≤ buf.length * 8 := by omega
      obtain ⟨buf',write,same,set⟩ := extendSign_inside _ fits
      rw [if_pos rfl,if_neg (by omega),write]
      refine ⟨taken,taken ▸ whole,same.trans length,fun x => ?_⟩
      rw [set,low,sign]
      split
      · rename_i below
        rw [decide_eq_false (by omega),Bool.or_false]
      · rename_i above
        rw [Bool.false_or,Bool.true_and]
        exact decide_eq_decide.mpr (by omega)
  · have unsigned : a.sign = false := by rw [Access.sign,decide_eq_false integer,Bool.false_and]
    rw [Access.extended,if_neg integer]
    exact ⟨taken,taken ▸ whole,length,fun x => by simp [low,unsigned]⟩

theorem fits_take (strided : a.stride ≠ 0) (exact : a.Exact a.take) : a.Fits := by
  have positive := stride_positive strided
  have small := a.stride.toNat_lt
  rw [take_strided strided] at exact
  cases run : a.copyBits a.stride.toNat with
  | error stop =>
    cases copyBits_stops run
    rw [run] at exact
    cases exact
  | ok buf =>
    have rounds := copyBits_rounds run
    obtain ⟨_,again,length,bits⟩ := copyBits_inside a.stride.toNat rounds
    cases run.symm.trans again
    rw [run] at exact
    change a.Exact (a.extended buf >>= fun buf => .ok (.bits ((List.range a.stride.toNat).map a.position) buf)) at exact
    cases extended : a.extended buf with
    | error stop =>
      rw [extended] at exact
      cases stop with
      | raised raise => exact absurd extended extended_stops
      | outside => cases exact
      | endless => cases exact
    | ok value =>
      rw [extended] at exact
      obtain ⟨taken,whole,size,same⟩ := exact
      have place {x : Nat} (below : x < a.stride.toNat) : a.position x = a.start + x :=
        List.map_inj_left.mp taken x (List.mem_range.mpr below)
      have last := place (x := a.stride.toNat - 1) (by omega)
      have bounded : a.start + (a.stride.toNat - 1) < a.loaded.length * 8 := by
        refine whole _ (List.mem_map.mpr ⟨a.stride.toNat - 1,List.mem_range.mpr (by omega),last⟩)
      rw [position_start] at last
      rw [Access.Fits,if_neg strided]
      refine ⟨by omega,by omega,fun long => ⟨fun integer => ?_,fun x below high => ?_⟩,fun sign => ?_⟩
      · rw [Access.extended,if_pos integer,signed_long (length ▸ long)] at extended
        cases extended
      · have bit := same x
        rwa [bitOf_beyond (size ▸ high),if_pos below,eq_comm] at bit
      · by_contra huge
        obtain ⟨integer,top⟩ := sign_integer sign
        have read : bitOf buf (a.stride.toNat - 1) = true := by
          rw [bits,place (by omega),top,decide_eq_true (by omega),Bool.and_self]
        rw [Access.extended,if_pos integer,signed_short positive (by omega),read,if_pos rfl] at extended
        split at extended
        · cases extended
        · -- the counter ends before the bit that is the last of the element
          rename_i ends
          have bit := same (a.size.toNat * 8 - 1)
          rw [extendSign_bits extended (by omega),bits,decide_eq_false (by omega),Bool.false_and,if_neg (by omega),sign,
            decide_eq_true (by omega)] at bit
          cases bit

theorem take_exact : a.Exact a.take ↔ a.Fits := by
  by_cases plain : a.stride = 0
  · exact take_bytes plain
  · exact ⟨fits_take plain,take_inside plain⟩

end Elements

section Indexing

/-- A computation that stops with an error report only -/
def Raises {α : Type} (code : Code α) : Prop := ∀ stop, code = .error stop → ∃ raise, stop = .raised raise

theorem Raises.ok {α : Type} (a : α) : Raises (.ok a) := fun _ run => nomatch run

theorem Raises.bind {α β : Type} {code : Code α} {next : α → Code β} (first : Raises code) (later : ∀ a, Raises (next a)) :
    Raises (code >>= next) := by
  intro stop run
  cases done : code with
  | error stop' =>
    rw [done] at run
    cases run
    exact first _ done
  | ok a =>
    rw [done] at run
    exact later a stop run

theorem invalid_raises {α : Type} (text : String) : Raises (invalid text : Code α) := by
  intro stop run
  cases run
  exact ⟨_,rfl⟩

theorem asked_raises {α : Type} (answer : Except Nat α) (text : String) : Raises (asked answer text) := by
  intro stop run
  cases answer with
  | ok a => cases run
  | error code =>
    cases run
    exact ⟨_,rfl⟩

theorem mapError_raises {α : Type} (answer : Except Raise α) : Raises (answer.mapError .raised) := by
  intro stop run
  cases answer with
  | ok a => cases run
  | error raise =>
    cases run
    exact ⟨raise,rfl⟩

variable {memory : UInt64 → Except Nat UInt8} {v : ArrayValue} {index : Except Raise (Except Raise Int64)}

theorem checkIndex_raises (index lowerBound : Int64) : Raises (checkIndex index lowerBound) := by
  unfold checkIndex
  split
  · exact invalid_raises _
  · exact .ok _

theorem knownSize_raises : Raises v.knownSize := by
  unfold ArrayValue.knownSize
  split
  · split
    · exact asked_raises _ _
    · exact .ok _
  · exact .ok _

theorem loadValue_raises (type : ArrayType) : Raises (loadValue memory type v) := by
  unfold loadValue
  split
  · exact asked_raises _ _
  · exact .ok _
  · intro stop run
    cases run
    exact ⟨_,rfl⟩
  · exact .bind (asked_raises _ _) fun typeSize => .ok _

theorem access_raises : Raises (access memory v index) := by
  unfold access
  refine .bind (mapError_raises _) fun index => ?_
  cases v.type with
  | none => exact invalid_raises _
  | some type =>
    refine .bind (asked_raises _ _) fun baseType => ?_
    cases baseType with
    | none => exact invalid_raises _
    | some element =>
      refine .bind (asked_raises _ _) fun typeClass => .bind (asked_raises _ _) fun size => .bind (mapError_raises _) fun index =>
        .bind (asked_raises _ _) fun lowerBound => .bind (checkIndex_raises _ _) fun _ => .bind (asked_raises _ _) fun bitStride => ?_
      split
      · exact .ok _
      · exact .bind knownSize_raises fun size' => .bind (loadValue_raises _) fun loaded => .ok _

/-- The element is taken from inside the loaded value, or there is an error report. -/
def Inside (memory : UInt64 → Except Nat UInt8) (v : ArrayValue) (index : Except Raise (Except Raise Int64)) : Prop :=
  Raises (access memory v index) ∧ ∀ a, access memory v index = .ok (.loaded a) → a.Exact (opIndex memory v index)

theorem opIndex_loaded {a : Access} (found : access memory v index = .ok (.loaded a)) : opIndex memory v index = a.take := by
  rw [opIndex,found]
  rfl

/-- Indexing stays inside a value exactly where the element does. -/
theorem index_inside_iff : Inside memory v index ↔ ∀ a, access memory v index = .ok (.loaded a) → a.Fits := by
  constructor
  · rintro ⟨_,exact⟩ a found
    exact take_exact.mp (opIndex_loaded found ▸ exact a found)
  · intro fits
    refine ⟨access_raises,fun a found => ?_⟩
    rw [opIndex_loaded found]
    exact take_exact.mpr (fits a found)

/-- The string `ab` with its NUL -/
def literal : ArrayValue where
  type := some ⟨.ok (some ⟨.ok .cardinal,.ok 1⟩),.ok 3,.ok 0,.ok 0⟩
  storage := .held [0x61,0x62,0]
  size := 3
  symbol := none
  bigEndian := false

/-- The element behind the NUL is taken from behind the value. -/
theorem index_outside : ¬∀ memory v index, Inside memory v index := by
  intro claim
  have found : access (fun _ => .error 0) literal (.ok (.ok 3)) = .ok (.loaded ⟨[0x61,0x62,0],.cardinal,1,3,0⟩) := by rfl
  have exact := (claim (fun _ => .error 0) literal (.ok (.ok 3))).2 _ found
  rw [opIndex_loaded found,take_exact] at exact
  simp [Access.Fits] at exact

end Indexing

end Tcf.ArrayIndex
