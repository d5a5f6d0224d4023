import Mathlib.Data.List.Basic

/-! Error reports, which are compared through the pointers they are made of. -/
namespace Tcf.ErrorReports

/-- NULL is none. -/
abbrev Pointer := Option Nat

structure ErrorReportItem where
  name : Nat
  value : Nat
  next : Pointer
  deriving DecidableEq, Repr

structure ErrorReport where
  code : Int
  format : Pointer
  params : List Pointer
  props : Pointer
  deriving DecidableEq, Repr

/-- What pointers point to: strings, items and reports. -/
structure Memory where
  text : Nat → List UInt8
  item : Nat → ErrorReportItem
  report : Nat → ErrorReport

section Comparison

variable (m : Memory)

def sameText : Pointer → Pointer → Bool
  | none, none => true
  | some x, some y => x = y || m.text x = m.text y
  | _, _ => false

/-- The loop over the parameters, of which there are as many in both reports. -/
def sameParams : List Pointer → List Pointer → Bool
  | px :: xs, py :: ys => sameText m px py && sameParams xs ys
  | _, _ => true

/-- Rounds of the loop over the properties. -/
def sameProps : Nat → Pointer → Pointer → Option Bool
  | 0, _, _ => none
  | _ + 1, none, none => some true
  | rounds + 1, some px, some py =>
    if px = py ∨ m.text (m.item px).name = m.text (m.item py).name ∧ m.text (m.item px).value = m.text (m.item py).value then
      sameProps rounds (m.item px).next (m.item py).next
    else some false
  | _ + 1, _, _ => some false

def compareReports (rounds : Nat) (x y : ErrorReport) : Option Bool :=
  if x.code ≠ y.code then some false
  else if sameText m x.format y.format = false then some false
  else if x.params.length ≠ y.params.length then some false
  else if sameParams m x.params y.params = false then some false
  else if x.props = y.props then some true
  -- `py = x->props`
  else sameProps m rounds x.props x.props

def compareErrorReports (rounds : Nat) (x y : Pointer) : Option Bool :=
  if x = y then some true
  else
    match x, y with
    | some x, some y => compareReports m rounds (m.report x) (m.report y)
    | _, _ => some false

end Comparison

/-- What a report says. -/
structure Contents where
  code : Int
  format : Option (List UInt8)
  params : List (Option (List UInt8))
  props : List (List UInt8 × List UInt8)
  deriving DecidableEq, Repr

/-- A finite list of properties begins at a pointer. -/
inductive IsProps (m : Memory) : Pointer → List (List UInt8 × List UInt8) → Prop
  | nil : IsProps m none []
  | cons {p : Nat} {rest : List (List UInt8 × List UInt8)} (tail : IsProps m (m.item p).next rest) :
    IsProps m (some p) ((m.text (m.item p).name,m.text (m.item p).value) :: rest)

structure Says (m : Memory) (x : ErrorReport) (c : Contents) : Prop where
  code : x.code = c.code
  format : x.format.map m.text = c.format
  params : x.params.map (·.map m.text) = c.params
  props : IsProps m x.props c.props

section Exact

variable {m : Memory} {x y : ErrorReport} {c d : Contents}

theorem sameText_iff (p q : Pointer) : sameText m p q = true ↔ p.map m.text = q.map m.text := by
  cases p with
  | none => cases q <;> simp [sameText]
  | some p =>
    cases q with
    | none => simp [sameText]
    | some q =>
      simp only [sameText,Bool.or_eq_true,decide_eq_true_eq,Option.map_some,Option.some.injEq]
      exact or_iff_right_of_imp fun same => congrArg m.text same

theorem sameParams_iff {ps qs : List Pointer} (length : ps.length = qs.length) :
    sameParams m ps qs = true ↔ ps.map (·.map m.text) = qs.map (·.map m.text) := by
  induction ps generalizing qs with
  | nil =>
    cases qs with
    | nil => exact iff_of_true rfl rfl
    | cons => cases length
  | cons p ps ih =>
    cases qs with
    | nil => cases length
    | cons q qs =>
      simp only [sameParams,Bool.and_eq_true,List.map_cons,List.cons.injEq]
      exact and_congr (sameText_iff p q) (ih (Nat.succ.inj length))

theorem IsProps.unique {p : Pointer} {xs ys : List (List UInt8 × List UInt8)} (first : IsProps m p xs) (second : IsProps m p ys) :
    xs = ys := by
  induction first generalizing ys with
  | nil =>
    cases second
    rfl
  | cons _ ih =>
    cases second with
    | cons tail => rw [ih tail]

/-- The loop ends with both lists, or where they differ. -/
theorem sameProps_eq {p q : Pointer} {xs ys : List (List UInt8 × List UInt8)} {rounds : Nat} (first : IsProps m p xs)
    (second : IsProps m q ys) (enough : xs.length < rounds) : sameProps m rounds p q = some (decide (xs = ys)) := by
  obtain ⟨rounds,rfl⟩ := Nat.exists_eq_add_one.mpr (Nat.zero_lt_of_lt enough)
  induction first generalizing q ys rounds with
  | nil =>
    cases second with
    | nil => rfl
    | cons => rfl
  | @cons p rest tail ih =>
    cases second with
    | nil => rfl
    | @cons q others tail' =>
      have less : rest.length < rounds := Nat.lt_of_succ_lt_succ enough
      obtain ⟨rounds,rfl⟩ := Nat.exists_eq_add_one.mpr (Nat.zero_lt_of_lt less)
      unfold sameProps
      split
      · rename_i same
        have items : (m.text (m.item p).name,m.text (m.item p).value) = (m.text (m.item q).name,m.text (m.item q).value) := by
          rcases same with rfl | ⟨name,value⟩
          · rfl
          · rw [name,value]
        rw [ih tail' rounds less]
        simp only [items,List.cons.injEq,true_and]
      · rename_i differ
        rw [decide_eq_false]
        intro equal
        obtain ⟨items,-⟩ := List.cons.inj equal
        exact differ (.inr (Prod.mk.inj items))

theorem sameProps_self {p : Pointer} {xs : List (List UInt8 × List UInt8)} {rounds : Nat} (list : IsProps m p xs)
    (enough : xs.length < rounds) : sameProps m rounds p p = some true := by
  rw [sameProps_eq list list enough,decide_eq_true rfl]

/-- The properties of the second report are never looked at. -/
theorem compareReports_eq (list : IsProps m x.props c.props) {rounds : Nat} (enough : c.props.length < rounds) :
    compareReports m rounds x y = some (decide (x.code = y.code) && sameText m x.format y.format &&
      decide (x.params.length = y.params.length) && sameParams m x.params y.params) := by
  have props : (if x.props = y.props then some true else sameProps m rounds x.props x.props) = some true := by
    rw [sameProps_self list enough,ite_self]
  unfold compareReports
  rw [props]
  by_cases code : x.code = y.code
  · by_cases params : x.params.length = y.params.length
    · cases sameText m x.format y.format <;> cases sameParams m x.params y.params <;> simp [code,params]
    · cases sameText m x.format y.format <;> simp [code,params]
  · simp [code]

theorem compareReports_iff (first : Says m x c) (second : Says m y d) {rounds : Nat} (enough : c.props.length < rounds) :
    compareReports m rounds x y = some (decide ({ c with props := d.props } = d)) := by
  rw [compareReports_eq first.props enough]
  obtain ⟨code,format,params,_⟩ := c
  obtain ⟨code',format',params',_⟩ := d
  have lengths (same : params = params') : x.params.length = y.params.length := by
    have mapped := first.params.trans (same.trans second.params.symm)
    simpa using congrArg List.length mapped
  congr 1
  rw [Bool.eq_iff_iff]
  simp only [Bool.and_eq_true,decide_eq_true_eq,Contents.mk.injEq,and_true,sameText_iff,first.code,second.code,first.format,second.format]
  constructor
  · rintro ⟨⟨⟨rfl,rfl⟩,length⟩,same⟩
    exact ⟨rfl,rfl,first.params.symm.trans (((sameParams_iff length).mp same).trans second.params)⟩
  · rintro ⟨rfl,rfl,rfl⟩
    exact ⟨⟨⟨rfl,rfl⟩,lengths rfl⟩,(sameParams_iff (lengths rfl)).mpr (first.params.trans second.params.symm)⟩

theorem Says.unique (first : Says m x c) (second : Says m x d) : c = d := by
  obtain ⟨code,format,params,props⟩ := c
  obtain ⟨code',format',params',props'⟩ := d
  obtain ⟨rfl,rfl,rfl,list⟩ := first
  obtain ⟨rfl,rfl,rfl,list'⟩ := second
  have same : props = props' := list.unique list'
  rw [same]

end Exact

/-- The comparison ends, and is that of what the reports say exactly where their properties are equal or
something else differs. -/
theorem compareErrorReports_exact_iff (m : Memory) (x y : Nat) (c d : Contents) (first : Says m (m.report x) c)
    (second : Says m (m.report y) d) :
    ∃ answer, (∀ rounds, c.props.length < rounds → compareErrorReports m rounds (some x) (some y) = some answer) ∧
      ((answer = true ↔ c = d) ↔ c.props = d.props ∨ { c with props := d.props } ≠ d) := by
  refine ⟨decide ({ c with props := d.props } = d),?_,?_⟩
  · intro rounds enough
    unfold compareErrorReports
    by_cases same : x = y
    · subst same
      rw [if_pos rfl,first.unique second,decide_eq_true rfl]
    · rw [if_neg (by simpa using same)]
      exact compareReports_iff first second enough
  · rw [decide_eq_true_iff]
    by_cases props : c.props = d.props
    · rw [← props]
      exact iff_of_true Iff.rfl (.inl rfl)
    · have differ : c ≠ d := fun equal => props (congrArg Contents.props equal)
      simp only [differ,iff_false,props,false_or,ne_eq]

section Examples

/-- Two reports with one property each; the values differ. -/
def exampleMemory : Memory where
  text p := [UInt8.ofNat p]
  item p := ⟨1,p + 1,none⟩
  report p := ⟨5,none,[],some p⟩

theorem exampleMemory_told (p : Nat) : Says exampleMemory (exampleMemory.report p) ⟨5,none,[],[([1],[UInt8.ofNat (p + 1)])]⟩ :=
  ⟨rfl,rfl,rfl,.cons .nil⟩

theorem compareErrorReports_exact_example :
    ∃ answer, (∀ rounds, 1 < rounds → compareErrorReports exampleMemory rounds (some 1) (some 1) = some answer) ∧
      ((answer = true ↔ (⟨5,none,[],[([1],[2])]⟩ : Contents) = ⟨5,none,[],[([1],[2])]⟩) ↔
        [(([1] : List UInt8),([2] : List UInt8))] = [([1],[2])] ∨ (⟨5,none,[],[([1],[2])]⟩ : Contents) ≠ ⟨5,none,[],[([1],[2])]⟩) :=
  compareErrorReports_exact_iff exampleMemory 1 1 _ _ (exampleMemory_told 1) (exampleMemory_told 1)

/-- The values of a property are 2 and 3, and the reports are said to be equal. -/
theorem other_properties_equal :
    compareErrorReports exampleMemory 2 (some 1) (some 2) = some true ∧
    Says exampleMemory (exampleMemory.report 1) ⟨5,none,[],[([1],[2])]⟩ ∧
    Says exampleMemory (exampleMemory.report 2) ⟨5,none,[],[([1],[3])]⟩ :=
  ⟨by decide,⟨rfl,rfl,rfl,.cons .nil⟩,⟨rfl,rfl,rfl,.cons .nil⟩⟩

end Examples

end Tcf.ErrorReports
