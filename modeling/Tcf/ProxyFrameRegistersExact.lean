import Tcf.ProxyFrameRegisters
import Tcf.ProxyRegistersComplete
import Mathlib.Data.List.GetD
import Mathlib.Data.List.Infix

/-! When the registers of a stack frame are asked for in a text that is well formed, and get their own values. -/
namespace Tcf.ProxyRegisters

open Framing Json

section Claims

/-- A JSON array of values. -/
def array (texts : List Text) : Text := [91] ++ [comma].intercalate texts ++ [93]

def RequestExact (ctx : Text) (frame : Nat) (rs : List Child) : Prop :=
  requestText ctx frame rs = array ((rs.filter Child.listed).map (locationText ctx frame))

/-- A byte of a register is in the first `n` bytes of the values of the list. -/
def Received (listed : List Child) (n : Nat) (r : Child) (j : Nat) : Prop :=
  ∃ front back, listed = front ++ r :: back ∧ j < r.size ∧ (front.map Child.size).sum + j < n

/-- The bytes that have been received are the registers' own and are valid, and no others are valid. -/
structure Attributed (listed : List Child) (value : Child → List UInt8) (n : Nat) (d : RegisterData) : Prop where
  received : ∀ r j, Received listed n r j → d.mask (r.address j) = 0xff ∧ (value r)[j]? = some (d.data (r.address j))
  unreceived : ∀ r ∈ listed, ∀ j < r.size, ¬ Received listed n r j → d.mask (r.address j) = 0
  other : ∀ a, (∀ r ∈ listed, ∀ j < r.size, a ≠ r.address j) → d.mask a = 0

/-- A reply has the values of the registers, or less, or more, as a block with its size or in BASE64. -/
def RepliesExact (regSize : Nat) (rs : List Child) : Prop :=
  ∀ value : Child → List UInt8, (∀ r ∈ rs.filter Child.listed, (value r).length = r.size) →
    ∀ payload, payload <+: (rs.filter Child.listed).flatMap value ∨ (rs.filter Child.listed).flatMap value <+: payload →
      ∀ encoding, (encoding = .binary → payload.length < 2 ^ 64) → ∀ rest, ∃ d ended,
        validateMidFrameRegValuesCache regSize rs ((binaryText encoding payload).map .byte ++ rest) = .ok (d,ended) ∧
          Attributed (rs.filter Child.listed) value payload.length d ∧
          (payload = (rs.filter Child.listed).flatMap value → ended = (jsonTestChar 0 rest >>= jsonTestEom))

/-- No element of the list is written behind a child that is not. -/
def SeparatorsFit (rs : List Child) : Prop := (∃ r, rs.head? = some r ∧ r.listed) ∨ ∀ r ∈ rs, ¬ r.listed

def Child.Apart (r q : Child) : Prop := ∀ j < r.size, ∀ k < q.size, r.address j ≠ q.address k

/-- Each register in the block, and no two in one place. -/
structure Separate (regSize : Nat) (rs : List Child) : Prop where
  inside : ∀ r ∈ rs, r.listed → r.offset + r.size ≤ regSize
  apart : ∀ r ∈ rs, ∀ q ∈ rs, r.listed → q.listed → r ≠ q → r.Apart q

end Claims

section Request

variable {ctx : Text} {frame n : Nat} {rs : List Child}

theorem writeLocations_later (later : 0 < n) : writeLocations ctx frame n rs =
    (rs.filter Child.listed).flatMap fun r => comma :: locationText ctx frame r := by
  induction rs generalizing n with
  | nil => rfl
  | cons r rest ih =>
    unfold writeLocations
    rw [ih (Nat.succ_pos n)]
    by_cases listed : r.listed = true
    · rw [if_pos listed,if_pos later,List.filter_cons_of_pos listed,List.flatMap_cons]
      rfl
    · rw [if_neg listed,List.filter_cons_of_neg listed]
      rfl

theorem intercalate_map {α : Type} (location : α → Text) (x : α) (xs : List α) :
    [comma].intercalate ((x :: xs).map location) = location x ++ xs.flatMap fun r => comma :: location r := by
  induction xs generalizing x with
  | nil => simp
  | cons y ys ih =>
    rw [List.map_cons,List.map_cons,List.intercalate_cons_cons,← List.map_cons,ih y,List.flatMap_cons]
    simp

/-- The first child decides: a comma comes before every other one that is written. -/
theorem requestExact_iff : RequestExact ctx frame rs ↔ SeparatorsFit rs := by
  unfold RequestExact requestText array
  rw [List.append_left_inj,List.append_right_inj]
  cases rs with
  | nil => exact ⟨fun _ => Or.inr fun _ member => absurd member List.not_mem_nil,fun _ => rfl⟩
  | cons r rest =>
    unfold writeLocations
    rw [writeLocations_later (Nat.succ_pos 0)]
    by_cases listed : r.listed = true
    · rw [if_pos listed,if_neg (Nat.lt_irrefl 0),List.nil_append,List.filter_cons_of_pos listed,intercalate_map]
      exact ⟨fun _ => Or.inl ⟨r,rfl,listed⟩,fun _ => rfl⟩
    · rw [if_neg listed,List.filter_cons_of_neg listed,List.nil_append]
      cases later : rest.filter Child.listed with
      | nil =>
        refine ⟨fun _ => Or.inr fun q member => ?_,fun _ => rfl⟩
        rcases List.mem_cons.mp member with rfl | member
        · exact listed
        · exact List.filter_eq_nil_iff.mp later q member
      | cons q qs =>
        rw [intercalate_map]
        constructor
        · intro same
          unfold locationText at same
          simp only [List.flatMap_cons,List.cons_append,List.nil_append,List.append_assoc] at same
          exact absurd (List.cons.inj same).1 (by decide)
        · rintro (⟨first,eq,is⟩ | none)
          · obtain rfl := Option.some.inj eq
            exact absurd is listed
          · have member : q ∈ rest.filter Child.listed := later ▸ List.mem_cons_self
            exact absurd (List.mem_filter.mp member).2 (none q (List.mem_cons_of_mem _ (List.mem_filter.mp member).1))

end Request

section Reading

variable {rs : List Child} {r : Child} {st : Reader} {pos regSize : Nat} {payload : List UInt8} {rest : Input} {d : RegisterData}

/-- What the loops leave in the frame. -/
def fill : List Child → List UInt8 → RegisterData → RegisterData
  | [], _, d => d
  | r :: rest, payload, d => fill rest (payload.drop r.size) (d.put r.offset (payload.take r.size))

theorem put_nil (start : Nat) : d.put start [] = d := by
  unfold RegisterData.put
  congr
  · funext a
    simp
  · funext a
    exact if_neg fun inside => absurd inside.2 (Nat.not_lt.mpr inside.1)

/-- Behind the end of a register, or of the reply, no more is read. -/
theorem readRegister_ended (fuel n : Nat) (serves : Serves st pos payload rest) (bound : n ≤ r.size)
    (ended : n < r.size → payload = []) :
    ∃ next, readRegister r (fuel + 1) n st d = .ok (next,d) ∧ Serves next pos payload rest := by
  unfold readRegister
  by_cases less : n < r.size
  · obtain ⟨next,read,serves⟩ := jsonReadBinaryData_serves serves (r.size - n)
    obtain rfl := ended less
    rw [List.take_nil] at read serves
    rw [List.drop_nil] at serves
    refine ⟨next,?_,serves⟩
    rw [if_pos less,read,Code.ok_bind]
    dsimp only
    rw [require_true (show n + ([] : List UInt8).length ≤ r.size from bound),Code.ok_bind,if_pos rfl,put_nil]
    rfl
  · rw [if_neg less]
    exact ⟨st,rfl,serves⟩

theorem readRegister_serves (some_ : 0 < r.size) (serves : Serves st pos payload rest) : ∃ next,
    readRegister r (r.size + 1) 0 st d = .ok (next,d.put r.offset (payload.take r.size)) ∧
      Serves next (pos + (payload.take r.size).length) (payload.drop r.size) rest := by
  obtain ⟨next,read,serves⟩ := jsonReadBinaryData_serves serves (r.size - 0)
  rw [Nat.sub_zero] at read serves
  have bound : (payload.take r.size).length ≤ r.size := List.length_take_le _ _
  unfold readRegister
  rw [if_pos some_,Nat.sub_zero,read,Code.ok_bind]
  dsimp only
  rw [Nat.zero_add,require_true bound,Code.ok_bind]
  by_cases empty : payload.take r.size = []
  · rw [if_pos empty]
    exact ⟨next,rfl,serves⟩
  · rw [if_neg empty]
    obtain ⟨more,eq⟩ := Nat.exists_eq_add_one.mpr some_
    have ended : (payload.take r.size).length < r.size → payload.drop r.size = [] := by
      rw [List.length_take]
      intro less
      exact List.drop_eq_nil_of_le (by omega)
    have later := readRegister_ended (d := d.put r.offset (payload.take r.size)) more _ serves bound ended
    rw [← eq] at later
    exact later

theorem readRegisters_serves (inside : ∀ r ∈ rs, r.listed → r.offset + r.size ≤ regSize) (serves : Serves st pos payload rest) :
    ∃ next pos', readRegisters regSize rs st d = .ok (next,fill (rs.filter Child.listed) payload d) ∧
      Serves next pos' (payload.drop ((rs.filter Child.listed).map Child.size).sum) rest := by
  induction rs generalizing st pos payload d with
  | nil => exact ⟨st,pos,rfl,serves⟩
  | cons r rs ih =>
    obtain ⟨here,later⟩ := List.forall_mem_cons.mp inside
    unfold readRegisters
    by_cases listed : r.listed = true
    · have some_ : 0 < r.size := of_decide_eq_true (Bool.and_eq_true_iff.mp listed).1
      obtain ⟨next,read,serves⟩ := readRegister_serves (d := d) some_ serves
      obtain ⟨last,pos',run,serves⟩ := ih (d := d.put r.offset (payload.take r.size)) later serves
      rw [if_pos listed,require_true (here listed),Code.ok_bind,read,Code.ok_bind,List.filter_cons_of_pos listed]
      rw [List.drop_drop] at serves
      exact ⟨last,pos',run,serves⟩
    · rw [if_neg listed,List.filter_cons_of_neg listed]
      exact ih later serves

theorem readRegisters_inside {done : Reader × RegisterData} (run : readRegisters regSize rs st d = .ok done) :
    ∀ r ∈ rs, r.listed → r.offset + r.size ≤ regSize := by
  induction rs generalizing st d with
  | nil => exact fun _ member => absurd member List.not_mem_nil
  | cons r rs ih =>
    unfold readRegisters at run
    intro q member
    by_cases listed : r.listed = true
    · rw [if_pos listed] at run
      obtain ⟨here,run⟩ := Code.require_bind_ok.mp run
      obtain ⟨⟨next,d'⟩,-,run⟩ := Code.bind_ok_iff.mp run
      rcases List.mem_cons.mp member with rfl | member
      · exact fun _ => here
      · exact ih run q member
    · rw [if_neg listed] at run
      rcases List.mem_cons.mp member with rfl | member
      · exact fun is => absurd is listed
      · exact ih run q member

end Reading

section Filling

variable {listed : List Child} {r q : Child} {value : Child → List UInt8} {payload : List UInt8} {n j k : Nat} {d : RegisterData}

theorem Received.mem (received : Received listed n r j) : r ∈ listed ∧ j < r.size := by
  obtain ⟨front,back,rfl,less,-⟩ := received
  exact ⟨List.mem_append_right _ List.mem_cons_self,less⟩

/-- The first register gets the first bytes, and the others what is behind. -/
theorem received_cons_iff : Received (q :: listed) n r j ↔
    (r = q ∧ j < q.size ∧ j < n) ∨ Received listed (n - q.size) r j := by
  constructor
  · rintro ⟨front,back,eq,less,bound⟩
    cases front with
    | nil =>
      obtain ⟨rfl,rfl⟩ := List.cons.inj eq
      exact Or.inl ⟨rfl,less,Nat.lt_of_le_of_lt (Nat.le_add_left _ _) bound⟩
    | cons first front =>
      obtain ⟨rfl,rfl⟩ := List.cons.inj eq
      rw [List.map_cons,List.sum_cons] at bound
      exact Or.inr ⟨front,back,rfl,less,by omega⟩
  · rintro (⟨rfl,less,bound⟩ | ⟨front,back,rfl,less,bound⟩)
    · exact ⟨[],listed,rfl,less,(Nat.zero_add _).symm ▸ bound⟩
    · refine ⟨q :: front,back,rfl,less,?_⟩
      rw [List.map_cons,List.sum_cons]
      omega

theorem put_other {start a : Nat} {bytes : List UInt8} (other : ∀ j < bytes.length, a ≠ start + j) :
    (d.put start bytes).data a = d.data a ∧ (d.put start bytes).mask a = d.mask a := by
  have outside : ¬(start ≤ a ∧ a < start + bytes.length) := fun inside => other (a - start) (by omega) (by omega)
  constructor
  · unfold RegisterData.put
    dsimp only
    split
    · exact List.getD_eq_default _ _ (by omega)
    · rfl
  · exact if_neg outside

theorem put_same (d : RegisterData) (start : Nat) {bytes : List UInt8} (inside : j < bytes.length) :
    bytes[j]? = some ((d.put start bytes).data (start + j)) ∧ (d.put start bytes).mask (start + j) = 0xff := by
  constructor
  · unfold RegisterData.put
    dsimp only
    rw [if_pos (Nat.le_add_right _ _),Nat.add_sub_cancel_left,List.getElem?_eq_getElem inside,List.getD_eq_getElem _ _ inside]
  · exact if_pos ⟨Nat.le_add_right _ _,Nat.add_lt_add_left inside _⟩

/-- Where nothing is received, nothing changes. -/
theorem fill_other (listed : List Child) (payload : List UInt8) (d : RegisterData) {a : Nat} (other : ∀ r j, Received listed payload.length r j → a ≠ r.address j) :
    (fill listed payload d).data a = d.data a ∧ (fill listed payload d).mask a = d.mask a := by
  induction listed generalizing payload d with
  | nil => exact ⟨rfl,rfl⟩
  | cons q listed ih =>
    have later := ih (payload.drop q.size) (d.put q.offset (payload.take q.size)) fun r j received => by
      rw [List.length_drop] at received
      exact other r j (received_cons_iff.mpr (Or.inr received))
    have here : ∀ j < (payload.take q.size).length, a ≠ q.offset + j := by
      intro j less
      rw [List.length_take] at less
      exact other q j (received_cons_iff.mpr (Or.inl ⟨rfl,by omega,by omega⟩))
    have same := put_other (d := d) here
    exact ⟨later.1.trans same.1,later.2.trans same.2⟩

/-- One of two lists continues the other. -/
def Comparable (a b : List UInt8) : Prop := a <+: b ∨ b <+: a

theorem Comparable.drop {a b : List UInt8} (comparable : Comparable a b) (n : Nat) : Comparable (a.drop n) (b.drop n) :=
  comparable.imp (List.IsPrefix.drop · n) (List.IsPrefix.drop · n)

theorem Comparable.getElem? {a b : List UInt8} (comparable : Comparable a b) (inA : j < a.length) (inB : j < b.length) :
    a[j]? = b[j]? := by
  rcases comparable with ⟨more,rfl⟩ | ⟨more,rfl⟩
  · rw [List.getElem?_append_left inA]
  · rw [List.getElem?_append_left inB]

theorem address_inj (same : r.address j = r.address k) : j = k := Nat.add_left_cancel same

/-- Induction on the list. A register that is in it again gets the same bytes again. -/
theorem fill_received (sizes : ∀ r ∈ listed, (value r).length = r.size) (apart : ∀ r ∈ listed, ∀ q ∈ listed, r ≠ q → r.Apart q)
    (comparable : Comparable payload (listed.flatMap value)) (received : Received listed payload.length r j) :
    (fill listed payload d).mask (r.address j) = 0xff ∧ (value r)[j]? = some ((fill listed payload d).data (r.address j)) := by
  induction listed generalizing payload d with
  | nil => exact absurd received.mem.1 List.not_mem_nil
  | cons q listed ih =>
    obtain ⟨here,later⟩ := List.forall_mem_cons.mp sizes
    have tail : Comparable (payload.drop q.size) (listed.flatMap value) := by
      have dropped := comparable.drop q.size
      rwa [List.flatMap_cons,← here,List.drop_left,here] at dropped
    have apart' : ∀ r ∈ listed, ∀ q ∈ listed, r ≠ q → r.Apart q := fun r hr s hs =>
      apart r (List.mem_cons_of_mem _ hr) s (List.mem_cons_of_mem _ hs)
    by_cases again : Received listed (payload.drop q.size).length r j
    · exact ih later apart' tail again
    · rw [List.length_drop] at again
      rcases received_cons_iff.mp received with ⟨rfl,less,bound⟩ | received
      · have inTake : j < (payload.take r.size).length := by
          rw [List.length_take]
          omega
        have others := fill_other listed (payload.drop r.size) (d.put r.offset (payload.take r.size)) (a := r.address j)
          fun q k received same => by
            rw [List.length_drop] at received
            by_cases eq : r = q
            · subst eq
              obtain rfl := address_inj same
              exact again received
            · obtain ⟨member,small⟩ := received.mem
              exact apart r List.mem_cons_self q (List.mem_cons_of_mem _ member) eq j less k small same
        have put := put_same d r.offset inTake
        refine ⟨others.2.trans put.2,?_⟩
        have bytes : (payload.take r.size)[j]? = (value r)[j]? := by
          have inValue : j < (value r).length := here.symm ▸ less
          have inAll : j < ((r :: listed).flatMap value).length := by
            rw [List.flatMap_cons,List.length_append]
            omega
          rw [List.getElem?_take_of_lt less,comparable.getElem? bound inAll,List.flatMap_cons,List.getElem?_append_left inValue]
        rw [← bytes,put.1]
        exact congrArg some others.1.symm
      · exact absurd received again

theorem fill_attributed (sizes : ∀ r ∈ listed, (value r).length = r.size)
    (apart : ∀ r ∈ listed, ∀ q ∈ listed, r ≠ q → r.Apart q) (comparable : Comparable payload (listed.flatMap value)) :
    Attributed listed value payload.length (fill listed payload RegisterData.zero) where
  received _ _ received := fill_received sizes apart comparable received
  unreceived r hr j less not := by
    refine (fill_other listed payload _ fun q k received same => ?_).2
    obtain ⟨member,small⟩ := received.mem
    by_cases eq : r = q
    · subst eq
      obtain rfl := address_inj same
      exact not received
    · exact apart r hr q member eq j less k small same
  other a away := (fill_other listed payload _ fun r j received => away r received.mem.1 j received.mem.2).2

end Filling

section Replies

variable {regSize : Nat} {rs : List Child} {r : Child} {j : Nat}

theorem binaryStart_text {encoding : Encoding} {data : List UInt8} (small : encoding = .binary → data.length < 2 ^ 64)
    (rest : Input) :
    ∃ st, jsonReadBinaryStart ((binaryText encoding data).map .byte ++ rest) = .ok st ∧ Serves st 0 data rest := by
  cases encoding with
  | binary => exact jsonReadBinaryStart_text (small rfl) rest
  | base64 => exact jsonReadBinaryStart_base64 data rest

theorem sum_sizes {listed : List Child} {value : Child → List UInt8} (sizes : ∀ r ∈ listed, (value r).length = r.size) :
    (listed.flatMap value).length = (listed.map Child.size).sum := by
  rw [List.length_flatMap,List.map_congr_left sizes]

/-- With all values there, all bytes are received. -/
theorem received_all {listed : List Child} (member : r ∈ listed) (less : j < r.size) :
    Received listed (listed.map Child.size).sum r j := by
  obtain ⟨front,back,rfl⟩ := List.append_of_mem member
  refine ⟨front,back,rfl,less,?_⟩
  rw [List.map_append,List.sum_append,List.map_cons,List.sum_cons]
  omega

theorem repliesExact_of_separate (separate : Separate regSize rs) : RepliesExact regSize rs := by
  intro value sizes payload comparable encoding small rest
  obtain ⟨st,start,serves⟩ := binaryStart_text small rest
  obtain ⟨next,pos,run,serves⟩ := readRegisters_serves (d := RegisterData.zero) separate.inside serves
  have apart : ∀ r ∈ rs.filter Child.listed, ∀ q ∈ rs.filter Child.listed, r ≠ q → r.Apart q := fun r hr q hq =>
    separate.apart r (List.mem_filter.mp hr).1 q (List.mem_filter.mp hq).1 (List.mem_filter.mp hr).2 (List.mem_filter.mp hq).2
  refine ⟨_,jsonReadBinaryEnd next >>= fun inp => jsonTestChar 0 inp >>= jsonTestEom,?_,
    fill_attributed sizes apart comparable,?_⟩
  · unfold validateMidFrameRegValuesCache
    rw [start,Code.ok_bind,run,Code.ok_bind]
    rfl
  · rintro rfl
    rw [← sum_sizes sizes,List.drop_length] at serves
    rw [jsonReadBinaryEnd_serves serves,Code.ok_bind]

/-- The values of one register are ones and the others' are zeros, all in one reply. -/
theorem separate_of_repliesExact (exact_ : RepliesExact regSize rs) : Separate regSize rs := by
  have run : ∀ value : Child → List UInt8, (∀ r ∈ rs.filter Child.listed, (value r).length = r.size) →
      ∃ d, (∃ st done, readRegisters regSize rs st RegisterData.zero = .ok (done,d)) ∧
        ∀ r ∈ rs.filter Child.listed, ∀ j < r.size, (value r)[j]? = some (d.data (r.address j)) := by
    intro value sizes
    obtain ⟨d,ended,run,attributed,-⟩ := exact_ value sizes _ (Or.inl (List.prefix_refl _)) .base64 nofun []
    unfold validateMidFrameRegValuesCache at run
    obtain ⟨st,-,run⟩ := Code.bind_ok_iff.mp run
    obtain ⟨⟨done,d'⟩,run',last⟩ := Code.bind_ok_iff.mp run
    obtain ⟨rfl,-⟩ := Prod.mk.inj (Except.ok.inj last)
    refine ⟨d',⟨st,done,run'⟩,fun r member j less => ?_⟩
    apply (attributed.received r j ?_).2
    rw [sum_sizes sizes]
    exact received_all member less
  constructor
  · obtain ⟨d,⟨st,done,run⟩,-⟩ := run (fun r => List.replicate r.size 0) fun r _ => List.length_replicate
    exact readRegisters_inside run
  · intro r hr q hq listedR listedQ other j less k small same
    obtain ⟨d,-,bytes⟩ := run (fun c => List.replicate c.size (if c = r then 1 else 0)) fun c _ => List.length_replicate
    have one := bytes r (List.mem_filter.mpr ⟨hr,listedR⟩) j less
    have zero := bytes q (List.mem_filter.mpr ⟨hq,listedQ⟩) k small
    rw [same,List.getElem?_replicate_of_lt less,if_pos rfl] at one
    rw [List.getElem?_replicate_of_lt small,if_neg other.symm] at zero
    exact absurd (Option.some.inj (one.trans zero.symm)) (by decide)

/-- The request is right and each reply goes where it belongs exactly if all children are in the table, the first child
is in the request, or none, and those in it are in different places of the block. -/
theorem frame_registers_iff (slots : List Slot) (indices : List UInt32) (regSize : Nat) (ctx : Text) (frame : Nat) :
    (∃ rs, children slots indices = some rs ∧ RequestExact ctx frame rs ∧ RepliesExact regSize rs) ↔
      ∃ rs, children slots indices = some rs ∧ SeparatorsFit rs ∧ Separate regSize rs := by
  constructor
  · rintro ⟨rs,found,request,replies⟩
    exact ⟨rs,found,requestExact_iff.mp request,separate_of_repliesExact replies⟩
  · rintro ⟨rs,found,first,separate⟩
    exact ⟨rs,found,requestExact_iff.mpr first,repliesExact_of_separate separate⟩

/-- A flags register with no DWARF ID, and a register with one. -/
def twoSlots : List Slot :=
  [⟨⟨none,⟨some (bytes "eflags"),none,4,-1,-1,0⟩⟩,0⟩,⟨⟨none,⟨some (bytes "eax"),none,4,0,0,0⟩⟩,4⟩]

/-- The text of the request begins with a bracket and a comma. -/
theorem comma_before_first : ∃ rs, children twoSlots [0,1] = some rs ∧
    (requestText (bytes "P1") 1 rs).take 2 = [91,comma] ∧ ¬ RequestExact (bytes "P1") 1 rs := by
  refine ⟨_,rfl,rfl,fun request => ?_⟩
  rcases requestExact_iff.mp request with ⟨r,eq,listed⟩ | unlisted
  · obtain rfl := Option.some.inj eq
    exact absurd listed (by decide)
  · exact unlisted ⟨1,⟨⟨none,⟨some (bytes "eax"),none,4,0,0,0⟩⟩,4⟩⟩ (by decide) (by decide)

end Replies

section Table

variable {c : ContextCache} {ps : List RegisterProps} {indices : List UInt32} {rs : List Child}

theorem children_at (found : children c.slots indices = some rs) : ∀ r ∈ rs, c.slots[r.index]? = some r.slot := by
  induction indices generalizing rs with
  | nil =>
    obtain rfl := Option.some.inj found
    exact fun _ member => absurd member List.not_mem_nil
  | cons i rest ih =>
    unfold children at found
    rw [List.mapM_cons] at found
    obtain ⟨r,first,found⟩ := Option.bind_eq_some_iff.mp found
    obtain ⟨others,later,eq⟩ := Option.bind_eq_some_iff.mp found
    obtain rfl := Option.some.inj eq
    obtain ⟨slot,at_,rfl⟩ := Option.map_eq_some_iff.mp first
    intro r member
    rcases List.mem_cons.mp member with rfl | member
    · exact at_
    · exact ih later r member

/-- Children with names that are registers of a complete table are in different places. -/
theorem Complete.separate (complete : Complete c ps) (found : children c.slots indices = some rs)
    (named : ∀ r ∈ rs, r.listed → r.slot.named) : Separate c.regSize.toNat rs := by
  have at_ := children_at found
  constructor
  · intro r member listed
    exact complete.bounded r.slot (List.mem_of_getElem? (at_ r member)) (named r member listed)
  · intro r hr q hq listedR listedQ other j less k small same
    obtain ⟨i,slot⟩ := r
    obtain ⟨i',slot'⟩ := q
    have places : ∀ (i i' : Nat) (slot slot' : Slot), i < i' → c.slots[i]? = some slot → c.slots[i']? = some slot' →
        slot.named → slot'.named → slot.Apart slot' := by
      intro i i' slot slot' before hi hi' named named'
      obtain ⟨bound,rfl⟩ := List.getElem?_eq_some_iff.mp hi
      obtain ⟨bound',rfl⟩ := List.getElem?_eq_some_iff.mp hi'
      exact List.pairwise_iff_getElem.mp complete.apart i i' bound bound' before named named'
    have apart : slot.Apart slot' := by
      rcases Nat.lt_trichotomy i i' with before | rfl | after
      · exact places i i' slot slot' before (at_ _ hr) (at_ _ hq) (named _ hr listedR) (named _ hq listedQ)
      · have eq : slot = slot' := Option.some.inj ((at_ _ hr).symm.trans (at_ _ hq))
        exact absurd (congrArg (Child.mk i) eq) other
      · exact (places i' i slot' slot after (at_ _ hq) (at_ _ hr) (named _ hq listedQ) (named _ hr listedR)).symm
    have less : j < slot.props.size := less
    have small : k < slot'.props.size := small
    have same : slot.offset.toNat + j = slot'.offset.toNat + k := same
    unfold Slot.Apart Slot.last at apart
    omega

end Table

end Tcf.ProxyRegisters
