import Tcf.ProxyRegisters
import Mathlib.Data.List.Dedup
import Mathlib.Data.Nat.Find
import Mathlib.Algebra.BigOperators.Group.List.Basic

/-! When the table of registers of the proxy is complete: the walk visits all registers that the target sent. -/
namespace Tcf.ProxyRegisters

def RegisterProps.index (p : RegisterProps) : Option UInt32 := p.id.bind getRegIndex

def RegisterProps.place (p : RegisterProps) : Option Nat := p.index.map UInt32.toNat

def RegisterProps.size (p : RegisterProps) : Nat := p.regDef.size.toNat

/-- Where the bytes of a register end. -/
def Slot.last (s : Slot) : Nat := s.offset.toNat + s.props.size

def Slot.Apart (a b : Slot) : Prop := a.last ≤ b.offset.toNat ∨ b.last ≤ a.offset.toNat

/-- The walk ends in the table and visits the registers, each in its slot; and the bytes of registers are apart and in
the block for all of them. -/
structure Complete (c : ContextCache) (rs : List RegisterProps) : Prop where
  inside : c.faulted = false
  visited : ∃ k, walk c.slots = some k ∧
    ∀ p ∈ rs, ∃ i < k, p.place = some i ∧ c.slots[i]?.map Slot.props = some p
  apart : c.slots.Pairwise fun a b => a.named → b.named → a.Apart b
  bounded : ∀ s ∈ c.slots, s.named → s.last ≤ c.regSize.toNat

/-- The length of the table after registers have arrived in an order. -/
def tableSize (n : UInt32) : List RegisterProps → Option UInt32
  | [] => some n
  | p :: rest => (p.index.bind (grown n)).bind fun n => tableSize n rest

/-- Registers have names and different indices, from 0 on with no gap; one slot of the table is left; and all bytes can be
counted. -/
structure Numbered (rs : List RegisterProps) : Prop where
  named : ∀ p ∈ rs, p.regDef.name.isSome
  own : ∀ p ∈ rs, ∀ q ∈ rs, p.place = q.place → p = q
  gapless : ∀ p ∈ rs, ∀ i, p.place = some i → ∀ j < i, ∃ q ∈ rs, q.place = some j
  spare : ∃ n, tableSize 0 rs = some n ∧ ∃ j < n.toNat, ∀ p ∈ rs, p.place ≠ some j
  counted : (rs.dedup.map RegisterProps.size).sum < 2 ^ 32

section Walk

variable {slots : List Slot} {k : Nat}

theorem walk_eq_some_iff : walk slots = some k ↔
    (∃ s, slots[k]? = some s ∧ s.named = false) ∧ ∀ j < k, ∃ s, slots[j]? = some s ∧ s.named = true := by
  induction slots generalizing k with
  | nil => simp [walk]
  | cons s rest ih =>
    unfold walk
    by_cases named : s.named = true
    · rw [if_pos named]
      cases k with
      | zero => simp [named]
      | succ k =>
        rw [Option.map_eq_some_iff]
        constructor
        · rintro ⟨k',walked,eq⟩
          obtain rfl := Nat.succ.inj eq
          obtain ⟨last,before⟩ := ih.mp walked
          refine ⟨last,fun j less => ?_⟩
          cases j with
          | zero => exact ⟨s,rfl,named⟩
          | succ j => exact before j (Nat.lt_of_succ_lt_succ less)
        · rintro ⟨last,before⟩
          exact ⟨k,ih.mpr ⟨last,fun j less => before (j + 1) (Nat.succ_lt_succ less)⟩,rfl⟩
    · rw [if_neg named]
      constructor
      · intro eq
        obtain rfl := Option.some.inj eq
        exact ⟨⟨s,rfl,Bool.eq_false_iff.mpr named⟩,fun j less => absurd less (Nat.not_lt_zero j)⟩
      · rintro ⟨-,before⟩
        cases k with
        | zero => rfl
        | succ k =>
          obtain ⟨first,eq,is⟩ := before 0 (Nat.succ_pos k)
          obtain rfl := Option.some.inj eq
          exact absurd is named

end Walk

section Offsets

variable {slots : List Slot} {offs : UInt32}

/-- All bytes of the registers that have names. -/
def total : List Slot → Nat
  | [] => 0
  | s :: rest => (if s.named then s.props.size else 0) + total rest

theorem setOffsets_props : (setOffsets offs slots).map Slot.props = slots.map Slot.props := by
  induction slots generalizing offs with
  | nil => rfl
  | cons s rest ih =>
    unfold setOffsets
    by_cases named : s.named = true
    · rw [if_pos named,List.map_cons,List.map_cons,ih]
    · rw [if_neg named,List.map_cons,List.map_cons,ih]

theorem add_size (offs : UInt32) (p : RegisterProps) (fits : offs.toNat + p.size < 2 ^ 32) :
    (offs + p.regDef.size.toUInt32).toNat = offs.toNat + p.size := by
  rw [UInt32.toNat_add,UInt16.toNat_toUInt32]
  exact Nat.mod_eq_of_lt fits

theorem endOffset_toNat (fits : offs.toNat + total slots < 2 ^ 32) :
    (endOffset offs slots).toNat = offs.toNat + total slots := by
  induction slots generalizing offs with
  | nil => rfl
  | cons s rest ih =>
    unfold total at fits ⊢
    unfold endOffset
    by_cases named : s.named = true
    · rw [if_pos named] at fits ⊢
      rw [if_pos named]
      have here := add_size offs s.props (by omega)
      rw [ih (by omega),here]
      omega
    · rw [if_neg named] at fits ⊢
      rw [if_neg named]
      rw [ih (by omega)]
      omega

/-- Induction on the slots: a register is inside the block only if its end does not go around, which the next ones
then build on. -/
theorem bounded_iff : (∀ s ∈ setOffsets offs slots, s.named → s.last ≤ (endOffset offs slots).toNat) ↔
    offs.toNat + total slots < 2 ^ 32 := by
  induction slots generalizing offs with
  | nil => exact ⟨fun _ => offs.toNat_lt,fun _ _ member => absurd member List.not_mem_nil⟩
  | cons s rest ih =>
    unfold total setOffsets
    by_cases named : s.named = true
    · simp only [if_pos named,List.forall_mem_cons]
      have limit := (endOffset offs (s :: rest)).toNat_lt
      constructor
      · rintro ⟨here,later⟩
        have here : offs.toNat + s.props.size ≤ (endOffset offs (s :: rest)).toNat := here named
        have sum := add_size offs s.props (by omega)
        unfold endOffset at later
        rw [if_pos named] at later
        have := ih.mp later
        omega
      · intro fits
        have sum := add_size offs s.props (by omega)
        constructor
        · intro _
          rw [endOffset_toNat (by unfold total; rw [if_pos named]; exact fits)]
          change offs.toNat + s.props.size ≤ _
          unfold total
          rw [if_pos named]
          omega
        · unfold endOffset
          rw [if_pos named]
          exact ih.mpr (by omega)
    · simp only [if_neg named,List.forall_mem_cons]
      unfold endOffset
      rw [if_neg named,Nat.zero_add]
      constructor
      · exact fun inside => ih.mp inside.2
      · exact fun fits => ⟨fun is => absurd is named,ih.mpr fits⟩

theorem setOffsets_le (fits : offs.toNat + total slots < 2 ^ 32) :
    ∀ s ∈ setOffsets offs slots, s.named → offs.toNat ≤ s.offset.toNat := by
  induction slots generalizing offs with
  | nil => exact fun _ member => absurd member List.not_mem_nil
  | cons s rest ih =>
    unfold total at fits
    unfold setOffsets
    by_cases named : s.named = true
    · rw [if_pos named] at fits ⊢
      have sum := add_size offs s.props (by omega)
      intro later member is
      rcases List.mem_cons.mp member with rfl | member
      · exact Nat.le_refl _
      · have := ih (by omega) later member is
        omega
    · rw [if_neg named] at fits ⊢
      exact List.forall_mem_cons.mpr ⟨fun is => absurd is named,ih (by omega)⟩

theorem setOffsets_apart (fits : offs.toNat + total slots < 2 ^ 32) :
    (setOffsets offs slots).Pairwise fun a b => a.named → b.named → a.Apart b := by
  induction slots generalizing offs with
  | nil => exact List.Pairwise.nil
  | cons s rest ih =>
    unfold total at fits
    unfold setOffsets
    by_cases named : s.named = true
    · rw [if_pos named] at fits ⊢
      have sum := add_size offs s.props (by omega)
      refine List.Pairwise.cons (fun later member _ is => ?_) (ih (by omega))
      have after := setOffsets_le (by omega) later member is
      left
      change offs.toNat + s.props.size ≤ later.offset.toNat
      omega
    · rw [if_neg named] at fits ⊢
      exact List.Pairwise.cons (fun _ _ is => absurd is named) (ih (by omega))

end Offsets

section Table

variable {slots : List Slot} {rs : List RegisterProps} {p : RegisterProps}

/-- The slots hold the registers that have arrived, at their indices, and nothing else. -/
structure Held (slots : List Slot) (rs : List RegisterProps) : Prop where
  length : tableSize 0 rs = some (regMax slots)
  small : slots.length < 2 ^ 32
  placed : ∀ p ∈ rs, ∃ i < slots.length, p.place = some i
  slot : ∀ j s, slots[j]? = some s →
    s = zeroed ∧ (∀ p ∈ rs, p.place ≠ some j) ∨ s.props ∈ rs ∧ s.props.place = some j

theorem tableSize_append {n : UInt32} {more : List RegisterProps} :
    tableSize n (rs ++ more) = (tableSize n rs).bind fun n => tableSize n more := by
  induction rs generalizing n with
  | nil => rfl
  | cons p rest ih =>
    change ((p.index.bind (grown n)).bind fun n => tableSize n (rest ++ more)) =
      ((p.index.bind (grown n)).bind fun n => tableSize n rest).bind fun n => tableSize n more
    cases p.index.bind (grown n) with
    | none => rfl
    | some n => exact ih

theorem tableSize_snoc {n : UInt32} : tableSize n (rs ++ [p]) = (tableSize n rs).bind fun n => p.index.bind (grown n) := by
  rw [tableSize_append]
  congr
  funext n
  exact Option.bind_fun_some (p.index.bind (grown n))

theorem grown_spec {n m i : UInt32} (grows : grown n i = some m) : n ≤ m ∧ i < m := by
  unfold grown at grows
  split at grows
  · rename_i less
    obtain rfl := Option.some.inj grows
    exact ⟨UInt32.le_refl _,less⟩
  · simp only [Option.ite_none_right_eq_some,Option.some.injEq] at grows
    obtain ⟨both,rfl⟩ := grows
    exact both

theorem regMax_toNat (small : slots.length < 2 ^ 32) : (regMax slots).toNat = slots.length :=
  UInt32.toNat_ofNat_of_lt small

/-- One register arrives and the table has room for it, or gets it. -/
theorem Held.put {i n : UInt32} (held : Held slots rs) (index : p.index = some i)
    (grows : grown (regMax slots) i = some n) :
    Held ((slots ++ List.replicate (n.toNat - slots.length) zeroed).set i.toNat ⟨p,0⟩) (rs ++ [p]) := by
  obtain ⟨longer,room⟩ := grown_spec grows
  rw [UInt32.le_iff_toNat_le,regMax_toNat held.small] at longer
  rw [UInt32.lt_iff_toNat_lt] at room
  have limit := n.toNat_lt
  have place : p.place = some i.toNat := congrArg (Option.map UInt32.toNat) index
  have len : ((slots ++ List.replicate (n.toNat - slots.length) zeroed).set i.toNat ⟨p,0⟩).length = n.toNat := by
    rw [List.length_set,List.length_append,List.length_replicate]
    omega
  constructor
  · rw [tableSize_snoc,held.length,Option.bind_some,index,Option.bind_some,grows]
    unfold regMax
    rw [len,UInt32.ofNat_toNat]
  · rw [len]
    exact limit
  · rw [len]
    intro q member
    rcases List.mem_append.mp member with old | new
    · obtain ⟨j,less,eq⟩ := held.placed q old
      exact ⟨j,Nat.lt_of_lt_of_le less longer,eq⟩
    · obtain rfl := List.mem_singleton.mp new
      exact ⟨i.toNat,room,place⟩
  · intro j s at_
    rw [List.getElem?_set] at at_
    by_cases here : i.toNat = j
    · subst here
      rw [if_pos rfl] at at_
      obtain ⟨-,eq⟩ := Option.ite_none_right_eq_some.mp at_
      obtain rfl := Option.some.inj eq
      exact Or.inr ⟨List.mem_append_right _ (List.mem_singleton.mpr rfl),place⟩
    · rw [if_neg here] at at_
      have other : p.place ≠ some j := by
        rw [place]
        exact fun eq => here (Option.some.inj eq)
      rcases Nat.lt_or_ge j slots.length with old | new
      · rw [List.getElem?_append_left old] at at_
        rcases held.slot j s at_ with ⟨empty,free⟩ | ⟨member,eq⟩
        · refine Or.inl ⟨empty,fun q member => ?_⟩
          rcases List.mem_append.mp member with old | new
          · exact free q old
          · obtain rfl := List.mem_singleton.mp new
            exact other
        · exact Or.inr ⟨List.mem_append_left _ member,eq⟩
      · rw [List.getElem?_append_right new] at at_
        have empty := List.eq_of_mem_replicate (List.mem_of_getElem? at_)
        refine Or.inl ⟨empty,fun q member => ?_⟩
        rcases List.mem_append.mp member with old | new'
        · obtain ⟨k,less,eq⟩ := held.placed q old
          rw [eq]
          intro same
          obtain rfl := Option.some.inj same
          exact absurd less (Nat.not_lt.mpr new)
        · obtain rfl := List.mem_singleton.mp new'
          exact other

/-- What the slots hold that have names, when no two registers share one. -/
theorem Held.named_perm (held : Held slots rs) (named : ∀ p ∈ rs, p.regDef.name.isSome)
    (own : ∀ p ∈ rs, ∀ q ∈ rs, p.place = q.place → p = q) :
    ((slots.filter Slot.named).map Slot.props).Perm rs.dedup := by
  have at_ : ∀ (j : Nat) (s : Slot), slots[j]? = some s → s.named = true → s.props ∈ rs ∧ s.props.place = some j := by
    intro j s here is
    rcases held.slot j s here with ⟨rfl,-⟩ | register
    · cases is
    · exact register
  apply (List.perm_ext_iff_of_nodup ?_ rs.nodup_dedup).mpr
  · intro p
    rw [List.mem_dedup,List.mem_map]
    constructor
    · rintro ⟨s,member,rfl⟩
      obtain ⟨member,is⟩ := List.mem_filter.mp member
      obtain ⟨j,here⟩ := List.mem_iff_getElem?.mp member
      exact (at_ j s here is).1
    · intro member
      obtain ⟨i,less,place⟩ := held.placed p member
      rcases held.slot i slots[i] (List.getElem?_eq_getElem less) with ⟨-,free⟩ | ⟨other,same⟩
      · exact absurd place (free p member)
      · have eq := own _ other p member (same.trans place.symm)
        refine ⟨slots[i],List.mem_filter.mpr ⟨List.getElem_mem less,?_⟩,eq⟩
        unfold Slot.named
        rw [eq]
        exact named p member
  · apply List.pairwise_map.mpr
    apply List.pairwise_filter.mpr
    apply List.pairwise_iff_getElem.mpr
    intro i j hi hj before first second same
    have pi := (at_ i _ (List.getElem?_eq_getElem hi) first).2
    have pj := (at_ j _ (List.getElem?_eq_getElem hj) second).2
    rw [same,pj] at pi
    obtain rfl := Option.some.inj pi
    exact absurd before (Nat.lt_irrefl _)

theorem total_eq : total slots = ((slots.filter Slot.named).map fun s => s.props.size).sum := by
  induction slots with
  | nil => rfl
  | cons s rest ih =>
    unfold total
    by_cases named : s.named = true
    · rw [if_pos named,List.filter_cons_of_pos named,List.map_cons,List.sum_cons,ih]
    · rw [if_neg named,List.filter_cons_of_neg named,Nat.zero_add,ih]

theorem Held.total_eq (held : Held slots rs) (named : ∀ p ∈ rs, p.regDef.name.isSome)
    (own : ∀ p ∈ rs, ∀ q ∈ rs, p.place = q.place → p = q) : total slots = (rs.dedup.map RegisterProps.size).sum := by
  have perm := (held.named_perm named own).map RegisterProps.size
  rw [List.map_map] at perm
  exact ProxyRegisters.total_eq.trans perm.sum_nat

theorem walk_setOffsets {offs : UInt32} : walk (setOffsets offs slots) = walk slots := by
  induction slots generalizing offs with
  | nil => rfl
  | cons s rest ih =>
    unfold setOffsets walk
    by_cases named : s.named = true
    · rw [if_pos named,if_pos named]
      change (if s.named = true then _ else _) = _
      rw [if_pos named,ih]
    · rw [if_neg named,if_neg named]
      change (if s.named = true then _ else _) = _
      rw [if_neg named]

theorem setOffsets_at {offs : UInt32} {i : Nat} : (setOffsets offs slots)[i]?.map Slot.props = slots[i]?.map Slot.props := by
  rw [← List.getElem?_map,← List.getElem?_map,setOffsets_props]

end Table

section Finish

variable {c : ContextCache} {rs : List RegisterProps}

theorem complete_of_numbered (held : Held c.slots rs) (inside : c.faulted = false) (numbered : Numbered rs) :
    Complete (finish c) rs := by
  have sum : (0 : UInt32).toNat + total c.slots < 2 ^ 32 := by
    rw [held.total_eq numbered.named numbered.own]
    exact (Nat.zero_add _).symm ▸ numbered.counted
  refine ⟨inside,?_,setOffsets_apart sum,bounded_iff.mpr sum⟩
  obtain ⟨n,size,j,less,free⟩ := numbered.spare
  obtain rfl : regMax c.slots = n := Option.some.inj (held.length.symm.trans size)
  rw [regMax_toNat held.small] at less
  -- The walk ends at the first slot that no register takes.
  have some_free : ∃ j, j < c.slots.length ∧ ∀ p ∈ rs, p.place ≠ some j := ⟨j,less,free⟩
  classical
  let k := Nat.find some_free
  obtain ⟨inTable,empty⟩ := Nat.find_spec some_free
  have taken : ∀ j < k, ∃ p ∈ rs, p.place = some j := by
    intro j before
    by_contra none
    exact Nat.find_min some_free before ⟨Nat.lt_trans before inTable,fun p member eq => none ⟨p,member,eq⟩⟩
  refine ⟨k,?_,fun p member => ?_⟩
  · apply walk_setOffsets.trans
    apply walk_eq_some_iff.mpr
    constructor
    · refine ⟨c.slots[k],List.getElem?_eq_getElem inTable,?_⟩
      rcases held.slot k c.slots[k] (List.getElem?_eq_getElem inTable) with ⟨zero,-⟩ | ⟨member,here⟩
      · rw [zero]
        rfl
      · exact absurd here (empty _ member)
    · intro j before
      have less := Nat.lt_trans before inTable
      refine ⟨c.slots[j],List.getElem?_eq_getElem less,?_⟩
      obtain ⟨p,member,place⟩ := taken j before
      rcases held.slot j c.slots[j] (List.getElem?_eq_getElem less) with ⟨-,free⟩ | ⟨member,-⟩
      · exact absurd place (free p member)
      · exact numbered.named _ member
  · obtain ⟨i,less,place⟩ := held.placed p member
    have before : i < k := by
      by_contra after
      rcases Nat.lt_or_eq_of_le (Nat.le_of_not_lt after) with more | eq
      · obtain ⟨q,member,here⟩ := numbered.gapless p member i place k more
        exact empty q member here
      · exact empty p member (place.trans (congrArg some eq.symm))
    refine ⟨i,before,place,setOffsets_at.trans ?_⟩
    rw [List.getElem?_eq_getElem less,Option.map_some]
    rcases held.slot i c.slots[i] (List.getElem?_eq_getElem less) with ⟨-,free⟩ | ⟨other,same⟩
    · exact absurd place (free p member)
    · exact congrArg some (numbered.own _ other p member (same.trans place.symm))

theorem numbered_of_complete (held : Held c.slots rs) (complete : Complete (finish c) rs) : Numbered rs := by
  obtain ⟨k,walked,visited⟩ := complete.visited
  obtain ⟨⟨last,atLast,unnamed⟩,before⟩ := walk_eq_some_iff.mp (walk_setOffsets.symm.trans walked)
  have own : ∀ p ∈ rs, ∀ q ∈ rs, p.place = q.place → p = q := by
    intro p hp q hq same
    obtain ⟨i,-,pi,atI⟩ := visited p hp
    obtain ⟨j,-,pj,atJ⟩ := visited q hq
    rw [pi,pj] at same
    obtain rfl := Option.some.inj same
    exact Option.some.inj (atI.symm.trans atJ)
  have named : ∀ p ∈ rs, p.regDef.name.isSome := by
    intro p member
    obtain ⟨i,less,-,here⟩ := visited p member
    obtain ⟨s,atS,is⟩ := before i less
    have here := setOffsets_at.symm.trans here
    rw [atS] at here
    obtain rfl := Option.some.inj here
    exact is
  refine ⟨named,own,?_,?_,?_⟩
  · intro p member i place j less
    obtain ⟨i',before',place',-⟩ := visited p member
    obtain rfl := Option.some.inj (place.symm.trans place')
    obtain ⟨s,atS,is⟩ := before j (Nat.lt_trans less before')
    rcases held.slot j s atS with ⟨rfl,-⟩ | ⟨member,here⟩
    · cases is
    · exact ⟨s.props,member,here⟩
  · refine ⟨regMax c.slots,held.length,k,?_,fun p member here => ?_⟩
    · rw [regMax_toNat held.small]
      exact (List.getElem?_eq_some_iff.mp atLast).1
    · obtain ⟨i,less,place,-⟩ := visited p member
      obtain rfl := Option.some.inj (place.symm.trans here)
      exact absurd less (Nat.lt_irrefl _)
  · have sum := bounded_iff.mp complete.bounded
    rw [held.total_eq named own] at sum
    exact Nat.lt_of_le_of_lt (Nat.le_add_left _ _) sum

end Finish

section Run

variable {c c' : ContextCache} {rs : List RegisterProps} {p : RegisterProps} {reply : Reply} {replies : List Reply}

/-- What the replies have made of the table, while there is no error. -/
def Made (c : ContextCache) (rs : List RegisterProps) : Prop :=
  c.error = none → (c.faulted = false → Held c.slots rs) ∧ (c.faulted = true → tableSize 0 rs = none)

theorem Made.fault (none : tableSize 0 (rs ++ [p]) = none) : Made c.fault (rs ++ [p]) :=
  fun _ => ⟨fun no => Bool.noConfusion no,fun _ => none⟩

theorem tableSize_none (missing : p.index = none) : tableSize 0 (rs ++ [p]) = none := by
  rw [tableSize_snoc,missing]
  cases tableSize 0 rs with
  | none => rfl
  | some n => rfl

theorem put_made (made : Made c rs) (noError : c.error = none) {id : Text} {i : UInt32} (index : p.index = some i) :
    Made (c.put id i p) (rs ++ [p]) := by
  obtain ⟨held,beyond⟩ := made noError
  unfold ContextCache.put
  cases grows : grown (regMax c.slots) i with
  | none =>
    apply Made.fault
    rw [tableSize_snoc]
    cases faulted : c.faulted with
    | false =>
      rw [(held faulted).length,Option.bind_some,index,Option.bind_some,grows]
    | true =>
      rw [beyond faulted,Option.bind_none]
  | some n =>
    refine fun _ => ⟨fun inside => (held inside).put index grows,fun faulted => ?_⟩
    rw [tableSize_snoc,beyond faulted,Option.bind_none]

theorem receive_made (made : Made c rs) (noError : c.error = none) : Made (c.receive p) (rs ++ [p]) := by
  unfold ContextCache.receive
  cases id : p.id with
  | none =>
    apply Made.fault
    apply tableSize_none
    unfold RegisterProps.index
    rw [id]
    rfl
  | some name =>
    have index : p.index = getRegIndex name := by
      unfold RegisterProps.index
      rw [id]
      rfl
    dsimp only
    cases found : getRegIndex name with
    | none => exact fun no => nomatch no
    | some i => exact put_made made noError (index.trans found)

theorem answer_made (made : Made c rs) (noError : c.error = none) : Made (answer c reply) (rs ++ received [reply]) := by
  cases reply with
  | failed err => exact fun no => nomatch no
  | children ids =>
    rw [show received [.children ids] = [] from rfl,List.append_nil]
    exact made
  | other =>
    rw [show received [.other] = [] from rfl,List.append_nil]
    exact made
  | context props =>
    rw [show received [.context props] = [props] from rfl]
    exact receive_made made noError

theorem answer_done : (answer c reply).done = c.done := by
  cases reply with
  | failed => rfl
  | children => rfl
  | other => rfl
  | context props =>
    change (c.receive props).done = c.done
    unfold ContextCache.receive
    cases props.id with
    | none => rfl
    | some id =>
      dsimp only
      cases getRegIndex id with
      | none => rfl
      | some i =>
        change (c.put id i props).done = c.done
        unfold ContextCache.put
        cases grown (regMax c.slots) i with
        | none => rfl
        | some n => rfl

theorem received_cons : received (reply :: replies) = received [reply] ++ received replies := by
  cases reply with
  | failed => rfl
  | children => rfl
  | other => rfl
  | context props => rfl

/-- Induction on the replies. The last one finishes the table. -/
theorem run_made (made : Made c rs) (working : c.done = false) (ran : run c replies = some c') (done : c'.done = true) :
    ∃ raw, Made raw (rs ++ received replies) ∧ c' = finish raw := by
  induction replies generalizing c rs with
  | nil =>
    obtain rfl := Option.some.inj ran
    rw [working] at done
    cases done
  | cons reply rest ih =>
    unfold run at ran
    rw [List.foldlM_cons] at ran
    obtain ⟨next,step,ran⟩ := Option.bind_eq_some_iff.mp ran
    unfold validateRegistersCache at step
    by_cases pending : c.pending = 0
    · rw [if_pos pending] at step
      cases step
    rw [if_neg pending] at step
    obtain rfl := Option.some.inj step
    rw [received_cons,← List.append_assoc]
    let before : ContextCache := { c with pending := c.pending - 1 }
    let after := if before.error.isSome then before else answer before reply
    have madeAfter : Made after (rs ++ received [reply]) := by
      by_cases error : before.error.isSome = true
      · change Made (if before.error.isSome then before else answer before reply) _
        rw [if_pos error]
        intro no
        rw [no] at error
        cases error
      · change Made (if before.error.isSome then before else answer before reply) _
        rw [if_neg error]
        exact answer_made (c := before) made (Option.not_isSome_iff_eq_none.mp error)
    have workingAfter : after.done = false := by
      change (if before.error.isSome then before else answer before reply).done = false
      split
      · exact working
      · exact answer_done.trans working
    change run (if after.pending = 0 then finish after else after) rest = some c' at ran
    by_cases last : after.pending = 0
    · rw [if_pos last] at ran
      cases rest with
      | nil =>
        obtain rfl := Option.some.inj ran
        exact ⟨after,(List.append_nil _).symm ▸ madeAfter,rfl⟩
      | cons more rest =>
        unfold run at ran
        rw [List.foldlM_cons] at ran
        obtain ⟨next,step,-⟩ := Option.bind_eq_some_iff.mp ran
        unfold validateRegistersCache at step
        rw [if_pos (show (finish after).pending = 0 from last)] at step
        cases step
    · rw [if_neg last] at ran
      exact ih madeAfter workingAfter ran

end Run

section Claims

variable {id : Text} {replies : List Reply} {c : ContextCache}

/-- When the registers are done with no error, the table is complete exactly if the registers that the target sent have
names and own indices without gaps, the last slot of the table is left, and their sizes can be added. -/
theorem table_complete_iff (ran : run (start id) replies = some c) (done : c.done = true) (noError : c.error = none) :
    Complete c (received replies) ↔ Numbered (received replies) := by
  have empty : Made (start id) [] :=
    fun _ => ⟨fun _ => ⟨rfl,Nat.two_pow_pos 32,fun _ member => absurd member List.not_mem_nil,fun j s here => nomatch here⟩,fun faulted => nomatch faulted⟩
  obtain ⟨raw,made,rfl⟩ := run_made empty rfl ran done
  obtain ⟨held,beyond⟩ := made noError
  rw [List.nil_append] at held beyond
  cases faulted : raw.faulted with
  | false => exact ⟨numbered_of_complete (held faulted),complete_of_numbered (held faulted) faulted⟩
  | true =>
    constructor
    · intro complete
      exact absurd (complete.inside.symm.trans faulted) Bool.false_ne_true
    · intro numbered
      obtain ⟨n,size,-⟩ := numbered.spare
      rw [beyond faulted] at size
      cases size

/-- A context with one register, of some index. -/
def oneReply (id : Text) : List Reply :=
  [.children [id],.context ⟨some id,⟨some (bytes "r"),none,4,1,1,0⟩⟩,.children []]

theorem table_complete_once : ∃ c, run (start (bytes "P1")) (oneReply (bytes "R0.P1")) = some c ∧
    (Complete c (received (oneReply (bytes "R0.P1"))) ↔ Numbered (received (oneReply (bytes "R0.P1")))) := by
  have ran : run (start (bytes "P1")) (oneReply (bytes "R0.P1")) =
      some ((run (start (bytes "P1")) (oneReply (bytes "R0.P1"))).get (by decide)) := (Option.some_get _).symm
  exact ⟨_,ran,table_complete_iff ran (by decide) (by decide)⟩

/-- The first register has index 1: the walk ends at once. -/
theorem walk_ends_at_gap : ∃ c, run (start (bytes "P1")) (oneReply (bytes "R1.P1")) = some c ∧ c.done = true ∧
    c.error = none ∧ walk c.slots = some 0 ∧ ¬ Complete c (received (oneReply (bytes "R1.P1"))) := by
  have ran : run (start (bytes "P1")) (oneReply (bytes "R1.P1")) =
      some ((run (start (bytes "P1")) (oneReply (bytes "R1.P1"))).get (by decide)) := (Option.some_get _).symm
  have none : walk ((run (start (bytes "P1")) (oneReply (bytes "R1.P1"))).get (by decide)).slots = some 0 := by decide
  refine ⟨_,ran,by decide,by decide,none,fun complete => ?_⟩
  obtain ⟨k,walked,visited⟩ := complete.visited
  obtain rfl := Option.some.inj (none.symm.trans walked)
  obtain ⟨i,less,-⟩ := visited _ (List.mem_singleton.mpr rfl)
  exact absurd less (Nat.not_lt_zero i)

end Claims

end Tcf.ProxyRegisters
