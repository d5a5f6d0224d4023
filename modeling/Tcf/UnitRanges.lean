import Mathlib.Algebra.Order.Ring.Int
import Tcf.Base.Bisection

/-! Address ranges of compilation units, and the search for the first one that meets a range of addresses. -/
namespace Tcf.UnitRanges

section Code

/-- No range is empty, and none goes beyond the address space: `add_addr_range` sees to it. -/
structure UnitAddressRange (U : Type) where
  mUnit : U
  mSection : Nat
  mAddr : Nat
  mSize : Nat
  nonempty : 0 < mSize
  inside : mAddr + mSize ≤ 2 ^ 64

/-- The ranges of a file, with the names of its sections. -/
structure DwarfCache (U : Type) where
  mAddrRanges : List (UnitAddressRange U)
  mAddrRangesMaxSize : Nat
  mAddrRangesRelocatable : Bool
  sections : List (Option String)
  sorted : mAddrRanges.Pairwise fun x y => x.mAddr ≤ y.mAddr
  recorded : ∀ range ∈ mAddrRanges, range.mSize ≤ mAddrRangesMaxSize
  small : mAddrRangesMaxSize < 2 ^ 64

/-- The argument `section`: none, one of the file, or one of the file whose debug information this is. -/
inductive SectionArgument where
  | null
  | own (index : Nat)
  | stripped (name : String)
  deriving DecidableEq, Repr

variable {U : Type} (cache : DwarfCache U)

/-- The variable `s` -/
def sectionIndex : SectionArgument → Nat
  | .null => 0
  | .own index => if cache.mAddrRangesRelocatable then index else 0
  | .stripped name =>
    if cache.mAddrRangesRelocatable then ((cache.sections.tail.findIdx? (· = some name)).map (· + 1)).getD 0 else 0

def add64 (a b : Nat) : Nat := (a + b) % 2 ^ 64

def isLow (addrMin : Nat) (rk : UnitAddressRange U) : Bool := add64 rk.mAddr cache.mAddrRangesMaxSize ≤ addrMin

/-- The walk back from `k`. -/
def walkBack (addrMin : Nat) : Nat → Nat
  | 0 => 0
  | k+1 => if cache.mAddrRanges[k]?.any (isLow cache addrMin) then k + 1 else walkBack addrMin k

/-- The walk over `n` ranges from `k` on. -/
def walkForward (s addrMin addrMax : Nat) : Nat → Nat → Option Nat
  | 0, _ => none
  | n+1, k =>
    match cache.mAddrRanges[k]? with
    | none => none
    | some rk =>
      if addrMax < rk.mAddr then none
      else if add64 rk.mAddr rk.mSize ≤ addrMin then walkForward s addrMin addrMax n (k + 1)
      else if rk.mSection ≠ 0 ∧ s ≠ 0 ∧ rk.mSection ≠ s then walkForward s addrMin addrMax n (k + 1)
      else some k

/-- The loop of the search. There are at most 2^31 ranges, so that `h + l` does not wrap. -/
def findLoop (s addrMin addrMax : Nat) : Nat → Nat → Nat → Option Nat
  | 0, _, _ => none
  | rounds+1, l, h =>
    if l < h then
      match cache.mAddrRanges[(h + l) / 2]? with
      | none => none
      | some rk =>
        if addrMax < rk.mAddr then findLoop s addrMin addrMax rounds l ((h + l) / 2)
        else if isLow cache addrMin rk then findLoop s addrMin addrMax rounds ((h + l) / 2 + 1) h
        else
          let k := walkBack cache addrMin ((h + l) / 2)
          walkForward cache s addrMin addrMax (h - k) k
    else none

/-- The place of the range that is returned. -/
def findCompUnitAddrRange (argument : SectionArgument) (addrMin addrMax : Nat) : Option Nat :=
  findLoop cache (sectionIndex cache argument) addrMin addrMax cache.mAddrRanges.length 0 cache.mAddrRanges.length

end Code

section Rules

variable {U : Type} (cache : DwarfCache U) (argument : SectionArgument) (addrMin addrMax : Nat)

/-- The range has an address from `addrMin` to `addrMax`. -/
def UnitAddressRange.Meets (range : UnitAddressRange U) (addrMin addrMax : Nat) : Prop :=
  ∃ addr, (addrMin ≤ addr ∧ addr ≤ addrMax) ∧ range.mAddr ≤ addr ∧ addr < range.mAddr + range.mSize

/-- The range has no section, or no section is asked for, or it is the same. -/
def UnitAddressRange.Compatible (range : UnitAddressRange U) (s : Nat) : Prop := range.mSection = 0 ∨ s = 0 ∨ range.mSection = s

/-- There is a range at the place that is sought. -/
def Hit (i : Nat) : Prop :=
  ∃ range, cache.mAddrRanges[i]? = some range ∧ range.Meets addrMin addrMax ∧ range.Compatible (sectionIndex cache argument)

def Lowest (t : Nat) : Prop := Hit cache argument addrMin addrMax t ∧ ∀ i, i < t → ¬Hit cache argument addrMin addrMax i

/-- The search finds what a linear scan finds. -/
def Agrees : Prop := ∀ t, findCompUnitAddrRange cache argument addrMin addrMax = some t ↔ Lowest cache argument addrMin addrMax t

/-- What the search asks at a place, but without wrapping. -/
def exactProbe (k : Nat) : Ordering :=
  match cache.mAddrRanges[k]? with
  | none => .gt
  | some rk => if addrMax < rk.mAddr then .gt else if rk.mAddr + cache.mAddrRangesMaxSize ≤ addrMin then .lt else .eq

/-- The sum with the greatest size wraps, to a number that looks too low. -/
def Wraps (j : Nat) : Prop :=
  ∃ range, cache.mAddrRanges[j]? = some range ∧ 2 ^ 64 ≤ range.mAddr + cache.mAddrRangesMaxSize ∧
    range.mAddr + cache.mAddrRangesMaxSize ≤ 2 ^ 64 + addrMin

/-- The range does not end where the address space does, and no sum that wraps leads the search away from it:
such sums all lie behind the place at which it would stop without wrapping, or all before the range. -/
def Reached (t : Nat) : Prop :=
  (∀ range, cache.mAddrRanges[t]? = some range → range.mAddr + range.mSize < 2 ^ 64) ∧
  ((∃ k, Bisection.bisect (exactProbe cache addrMin addrMax) cache.mAddrRanges.length 0 cache.mAddrRanges.length = some k ∧
      ∀ j, Wraps cache addrMin j → k < j) ∨
    ∀ j, Wraps cache addrMin j → j < t)

end Rules

end Tcf.UnitRanges
