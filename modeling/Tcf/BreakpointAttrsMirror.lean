import Tcf.BreakpointAttrsAtomic

/-! Fields of breakpoints mirror their attributes as long as no list repeats a name. -/
namespace Tcf.BreakpointAttrs

open Json Framing

section Fields

variable {f : Field} {a : Attr} {attrs old new : List Attr} {fields : Fields}

/-- The attribute of a field. -/
def named (f : Field) (attrs : List Attr) : Option Attr := attrs.find? fun a => a.name = f.name

def Reads (fields : Fields) (f : Field) : Option Attr → Prop
  | none => fields f = some f.zero
  | some a => ∃ x, decode f a.value = .ok x ∧ fields f = some x

/-- Each field is what its attribute decodes to, or the default without one. -/
def Mirrors (fields : Fields) (attrs : List Attr) : Prop := ∀ f, Reads fields f (named f attrs)

def known (attrs : List Attr) : List Field := attrs.filterMap fun a => fieldOf a.name

/-- No attribute that has a field is there twice. -/
def NoRepeats (attrs : List Attr) : Prop := (known attrs).Nodup

instance (attrs : List Attr) : Decidable (NoRepeats attrs) := inferInstanceAs (Decidable (known attrs).Nodup)

theorem fieldOf_name (f : Field) : fieldOf f.name = some f := by
  cases f <;> decide

theorem fieldOf_iff {name : Text} : fieldOf name = some f ↔ name = f.name := by
  constructor
  · intro found
    have same := List.find?_some found
    exact (of_decide_eq_true same).symm
  · rintro rfl
    exact fieldOf_name f

theorem mem_known : f ∈ known attrs ↔ ∃ a ∈ attrs, a.name = f.name := by
  simp [known,fieldOf_iff]

theorem named_none : named f attrs = none ↔ f ∉ known attrs := by
  simp [named,mem_known]

theorem named_snoc : named f (attrs ++ [a]) = (named f attrs).or (if a.name = f.name then some a else none) := by
  simp [named,List.find?_append,List.find?_cons]
  split <;> rename_i same <;> simp_all

theorem NoRepeats.others {name : Text} (once : NoRepeats old) : NoRepeats (others name old) :=
  List.Nodup.sublist (List.Sublist.filterMap _ List.eraseP_sublist) once

theorem named_others {name : Text} (other : name ≠ f.name) : named f (others name old) = named f old := by
  induction old with
  | nil => rfl
  | cons b rest ih =>
    simp only [named,others,List.eraseP_cons,List.find?_cons] at ih ⊢
    by_cases here : b.name = name
    · have differs : b.name ≠ f.name := fun same => other (here.symm.trans same)
      simp [here,other]
    · simp only [here,decide_false,cond_false,List.find?_cons,ih]

theorem named_others_same (once : NoRepeats old) : named f (others f.name old) = none := by
  induction old with
  | nil => rfl
  | cons b rest ih =>
    by_cases here : b.name = f.name
    · have first : others f.name (b :: rest) = rest := by simp [others,here]
      have before : known (b :: rest) = f :: known rest := by simp [known,here,fieldOf_name]
      rw [NoRepeats,before,List.nodup_cons] at once
      rw [first]
      exact named_none.mpr once.1
    · have later : NoRepeats rest := List.Nodup.sublist (List.Sublist.filterMap _ (List.sublist_cons_self b rest)) once
      have first : others f.name (b :: rest) = b :: others f.name rest := by simp [others,here]
      have none := ih later
      rw [first]
      simp only [named,List.find?_cons,here,decide_false] at none ⊢
      exact none

end Fields

section Loops

variable {f : Field} {a : Attr} {old new : List Attr} {s : Applying}

/-- What holds in between: the fields mirror attributes that were put into the list, and old ones that were not met yet. -/
structure Progress (s : Applying) : Prop where
  reads : ∀ f, Reads s.fields f ((named f s.attrs).or (named f s.old))
  once : NoRepeats s.old
  apart : ∀ f, named f s.attrs = none ∨ named f s.old = none

theorem applyChanged_parses (typed : WellTyped a) (name : a.name = f.name) : Reads (applyChanged a s).1.fields f (some a) := by
  have here := fieldOf_iff.mpr name
  obtain ⟨x,value⟩ := typed f here
  rcases parse_cases f a.value s.fields with ⟨y,decoded,run⟩ | ⟨wrong,-⟩
  · refine ⟨y,decoded,?_⟩
    simp [applyChanged,here,run]
  · exact absurd ⟨x,value⟩ wrong

theorem applyChanged_other (typed : WellTyped a) (name : a.name ≠ f.name) : (applyChanged a s).1.fields f = s.fields f := by
  cases here : fieldOf a.name with
  | none => simp [applyChanged,here]
  | some g =>
    have differs : f ≠ g := by
      rintro rfl
      exact name (fieldOf_iff.mp here)
    obtain ⟨x,value⟩ := typed g here
    rcases parse_cases g a.value s.fields with ⟨y,-,run⟩ | ⟨wrong,-⟩
    · simp [applyChanged,here,run,differs]
    · exact absurd ⟨x,value⟩ wrong

theorem applyNew_other (typed : WellTyped a) (name : a.name ≠ f.name) : (applyNew a s).1.fields f = s.fields f := by
  rcases applyNew_cases a s with ⟨-,run⟩ | ⟨-,run⟩
  · rw [run]
  · rw [run,applyChanged_other typed name]

theorem applyNew_reads (p : Progress s) (typed : WellTyped a) (name : a.name = f.name) (fresh : named f s.attrs = none) :
    Reads (applyNew a s).1.fields f (some a) := by
  rcases applyNew_cases a s with ⟨kept,run⟩ | ⟨-,run⟩
  · have before := p.reads f
    rw [Kept,name] at kept
    rw [fresh,Option.none_or,named,kept] at before
    rw [run]
    exact before
  · rw [run]
    exact applyChanged_parses typed name

theorem Progress.next (p : Progress s) (typed : WellTyped a) (fresh : ∀ f, a.name = f.name → named f s.attrs = none) :
    Progress (applyNew a s).1 where
  reads f := by
    rw [applyNew_attrs,applyNew_old,named_snoc]
    by_cases name : a.name = f.name
    · rw [if_pos name,fresh f name]
      exact applyNew_reads p typed name (fresh f name)
    · have before := p.reads f
      rw [if_neg name,Option.or_none,named_others name]
      cases read : (named f s.attrs).or (named f s.old) with
      | none =>
        rw [read] at before
        exact (applyNew_other typed name).trans before
      | some b =>
        rw [read] at before
        obtain ⟨x,decoded,field⟩ := before
        exact ⟨x,decoded,(applyNew_other typed name).trans field⟩
  once := by
    rw [applyNew_old]
    exact p.once.others
  apart f := by
    rw [applyNew_attrs,applyNew_old,named_snoc]
    by_cases name : a.name = f.name
    · right
      rw [name]
      exact named_others_same p.once
    · rw [if_neg name,Option.or_none,named_others name]
      exact p.apart f

theorem Progress.all (p : Progress s) (typed : ∀ a ∈ new, WellTyped a) (once : NoRepeats new)
    (fresh : ∀ f ∈ known new, named f s.attrs = none) :
    (applyAll new s).2 = .returns ∧ Progress (applyAll new s).1 ∧ (applyAll new s).1.attrs = s.attrs ++ new := by
  induction new generalizing s with
  | nil => exact ⟨rfl,p,by simp [applyAll]⟩
  | cons a new ih =>
    obtain ⟨here,later⟩ := List.forall_mem_cons.mp typed
    have returns : (applyNew a s).2 = .returns := by
      rcases applyNew_returns a s with ⟨-,run⟩ | ⟨wrong,-⟩
      · exact run
      · exact absurd (.inr here) wrong
    have next : Progress (applyNew a s).1 := p.next here fun f name => fresh f (mem_known.mpr ⟨a,by simp,name⟩)
    have onceLater : NoRepeats new := List.Nodup.sublist (List.Sublist.filterMap _ (List.sublist_cons_self a new)) once
    have freshLater : ∀ f ∈ known new, named f (applyNew a s).1.attrs = none := by
      intro f mem
      obtain ⟨b,inside,name⟩ := mem_known.mp mem
      rw [applyNew_attrs,named_snoc,fresh f (mem_known.mpr ⟨b,List.mem_cons_of_mem a inside,name⟩),Option.none_or,if_neg]
      intro same
      have twice : known (a :: new) = f :: known new := by simp [known,fieldOf_iff.mpr same]
      rw [NoRepeats,twice] at once
      exact (List.nodup_cons.mp once).1 mem
    obtain ⟨run,after,list⟩ := ih next later onceLater freshLater
    simp only [applyAll,if_pos returns]
    exact ⟨run,after,by simp [list]⟩

theorem resetAll_fields (old : List Attr) (s : Applying) (f : Field) :
    (old.foldl resetOld s).fields f = if named f old = none then s.fields f else some f.zero := by
  induction old generalizing s with
  | nil => rfl
  | cons b rest ih =>
    rw [List.foldl_cons,ih]
    by_cases name : b.name = f.name
    · have first : named f (b :: rest) = some b := by simp [named,name]
      have reset : (resetOld s b).fields f = some f.zero := by simp [resetOld,fieldOf_iff.mpr name]
      simp [first,reset]
    · have first : named f (b :: rest) = named f rest := by simp [named,name]
      have same : (resetOld s b).fields f = s.fields f := by
        unfold resetOld
        split
        · rfl
        · rename_i g here
          have differs : f ≠ g := by
            rintro rfl
            exact name (fieldOf_iff.mp here)
          simp [differs]
      rw [first,same]

theorem resetAll_attrs (old : List Attr) (s : Applying) : (old.foldl resetOld s).attrs = s.attrs := by
  induction old generalizing s with
  | nil => rfl
  | cons b rest ih =>
    rw [List.foldl_cons,ih]
    unfold resetOld
    split <;> rfl

/-- Well typed attributes without repetitions make the fields mirror the new list. -/
theorem setBreakpointAttributes_mirrors {bp : BreakpointInfo} (mirrors : Mirrors bp.fields bp.attrs) (before : NoRepeats bp.attrs)
    (typed : ∀ a ∈ new, WellTyped a) (once : NoRepeats new) :
    (setBreakpointAttributes bp new).2.1 = .returns ∧ (setBreakpointAttributes bp new).1.attrs = new ∧
      Mirrors (setBreakpointAttributes bp new).1.fields new := by
  have start : Progress ⟨bp.fields,[],bp.attrs,0⟩ := ⟨fun f => mirrors f,before,fun f => .inl rfl⟩
  obtain ⟨returns,p,list⟩ := start.all typed once fun f _ => rfl
  simp only [List.nil_append] at list
  simp only [setBreakpointAttributes,if_pos returns,resetAll_attrs]
  refine ⟨trivial,list,fun f => ?_⟩
  have reads := p.reads f
  rw [list] at reads
  cases here : named f new with
  | none =>
    rw [here,Option.none_or] at reads
    rw [Reads,resetAll_fields]
    split
    · rename_i gone
      rw [gone] at reads
      exact reads
    · rfl
  | some a =>
    have gone : named f (applyAll new ⟨bp.fields,[],bp.attrs,0⟩).1.old = none := by
      rcases p.apart f with absent | gone
      · rw [list,here] at absent
        cases absent
      · exact gone
    rw [here] at reads
    obtain ⟨x,decoded,field⟩ := reads
    exact ⟨x,decoded,by rw [resetAll_fields,if_pos gone,field]⟩

end Loops

end Tcf.BreakpointAttrs
