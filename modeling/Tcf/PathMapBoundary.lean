import Mathlib.Algebra.Order.Ring.Int
import Mathlib.Data.List.GetD
import Mathlib.Data.List.TakeWhile
import Tcf.PathMapRules

/-! When the rules of a path map apply at the boundaries of components, and join with one separator. -/
namespace Tcf.PathMap

section Canonical

variable {fnm buf front : Text} {skip : Nat} {c ch : UInt8}

theorem parent_mem (run : parent buf fnm = some front) (member : c ∈ front) : c ∈ buf := by
  unfold parent at run
  by_cases up : buf ≠ [] ∧ charAt fnm 0 = dot ∧ isSeparator (charAt fnm 1)
  · rw [if_pos up] at run
    simp only [Option.ite_none_right_eq_some,Option.some.injEq] at run
    rw [← run.2] at member
    exact List.mem_of_mem_tail ((List.dropWhile_suffix _).mem member)
  · rw [if_neg up] at run
    cases run

theorem driveLetter_plain (plain : ch ≠ 0 ∧ ch ≠ backslash) : driveLetter buf fnm ch ≠ 0 ∧ driveLetter buf fnm ch ≠ backslash := by
  unfold driveLetter
  by_cases letter : buf = [] ∧ 0x61 ≤ ch ∧ ch ≤ 0x7a ∧ charAt fnm 0 = colon
  · rw [if_pos letter]
    obtain ⟨-,low,high,-⟩ := letter
    rw [UInt8.le_iff_toNat_le] at low high
    have value : (ch - 0x61 + 0x41).toNat = ch.toNat - 0x20 := by
      rw [UInt8.toNat_add,UInt8.toNat_sub]
      simp only [UInt8.reduceToNat] at low high ⊢
      omega
    simp only [UInt8.reduceToNat] at low high
    refine ⟨fun same => ?_,fun same => ?_⟩
    · rw [same] at value
      simp only [UInt8.reduceToNat] at value
      omega
    · rw [same] at value
      simp only [backslash,UInt8.reduceToNat] at value
      omega
  · rw [if_neg letter]
    exact plain

/-- The characters of a canonical name are neither NUL nor backslashes. -/
theorem canonicLoop_plain (start : ∀ c ∈ buf, c ≠ 0 ∧ c ≠ backslash) : ∀ c ∈ canonicLoop fnm skip buf, c ≠ 0 ∧ c ≠ backslash := by
  have slashes {c : UInt8} (some_ : ¬(if c = backslash then slash else c) = 0) :
      (if c = backslash then slash else c) ≠ 0 ∧ (if c = backslash then slash else c) ≠ backslash := by
    by_cases back : c = backslash
    · rw [if_pos back]
      decide
    · rw [if_neg back] at some_ ⊢
      exact ⟨some_,back⟩
  fun_induction canonicLoop fnm skip buf with
  | case1 => exact start
  | case2 _ _ _ _ ih => exact ih start
  | case3 => exact start
  | case4 _ _ _ _ _ _ ih => exact ih start
  | case5 => exact start
  | case6 _ _ _ _ _ _ _ _ _ ih => exact ih start
  | case7 _ _ _ _ _ _ _ _ _ front run ih => exact ih fun c member => start c (parent_mem run member)
  | case8 _ _ _ _ some_ _ _ _ _ _ ih => exact ih (List.forall_mem_cons.mpr ⟨slashes some_,start⟩)
  | case9 _ _ _ _ some_ _ _ _ ih => exact ih (List.forall_mem_cons.mpr ⟨driveLetter_plain (slashes some_),start⟩)

theorem canonic_plain (name : Text) : ∀ c ∈ canonicPathMapFileName name, c ≠ 0 ∧ c ≠ backslash :=
  fun c member => canonicLoop_plain (fun _ none_ => absurd none_ List.not_mem_nil) c (List.mem_reverse.mp member)

end Canonical

section Join

variable {dst rest : Text}

/-- The destination and the rest of a name with one separator between them: that of the destination if it ends with any. -/
def joined (dst rest : Text) : Text :=
  let base := (dst.reverse.dropWhile isSeparator).reverse
  base ++ (dst.drop base.length).headD slash :: rest

def TwoSeparators (dst : Text) : Prop := 2 ≤ dst.length ∧ isSeparator (lastChar dst) ∧ isSeparator (charAt dst (dst.length - 2))

theorem lastChar_append (front : Text) (c : UInt8) : lastChar (front ++ [c]) = c := by simp [lastChar,charAt]

theorem joined_plain (plain : ¬isSeparator (lastChar dst)) : joined dst rest = dst ++ slash :: rest := by
  rcases List.eq_nil_or_concat dst with rfl | ⟨front,c,rfl⟩
  · rfl
  · rw [List.concat_eq_append,lastChar_append] at plain
    simp [joined,plain]

/-- Behind the part of a destination that does not end with a separator, the rest of it is separators. -/
theorem joined_base {base seps : Text} {sep : UInt8} (ends : base = [] ∨ ¬isSeparator (lastChar base)) (all : ∀ c ∈ sep :: seps, isSeparator c) :
    joined (base ++ sep :: seps) rest = base ++ sep :: rest := by
  have all' : ∀ c ∈ (sep :: seps).reverse, isSeparator c := fun c member => all c (List.mem_reverse.mp member)
  have dropped : (base ++ sep :: seps).reverse.dropWhile isSeparator = base.reverse := by
    rw [List.reverse_append,List.dropWhile_append_of_pos all']
    rcases List.eq_nil_or_concat base with rfl | ⟨front,c,rfl⟩
    · rfl
    · have last : ¬isSeparator c := by
        rcases ends with none_ | last
        · simp at none_
        · rwa [List.concat_eq_append,lastChar_append] at last
      rw [List.concat_eq_append,List.reverse_append]
      exact List.dropWhile_cons_of_neg last
  simp only [joined,dropped,List.reverse_reverse,List.drop_left,List.headD_cons]

/-- Every destination is a part that does not end with a separator, and separators. -/
theorem split_base (dst : Text) : ∃ base seps, dst = base ++ seps ∧ (base = [] ∨ ¬isSeparator (lastChar base)) ∧ ∀ c ∈ seps, isSeparator c := by
  refine ⟨(dst.reverse.dropWhile isSeparator).reverse,(dst.reverse.takeWhile isSeparator).reverse,?_,?_,?_⟩
  · rw [← List.reverse_append,List.takeWhile_append_dropWhile,List.reverse_reverse]
  · cases left : dst.reverse.dropWhile isSeparator with
    | nil => exact .inl rfl
    | cons c more =>
      right
      rw [List.reverse_cons,lastChar_append]
      have head := List.head?_dropWhile_not isSeparator dst.reverse
      rw [left] at head
      simpa using head
  · intro c member
    exact List.mem_takeWhile_imp (List.mem_reverse.mp member)

theorem joined_cases (ends : isSeparator (lastChar dst)) :
    (¬TwoSeparators dst ∧ joined dst rest = dst ++ rest) ∨ (TwoSeparators dst ∧ (joined dst rest).length < dst.length + rest.length) := by
  obtain ⟨base,seps,rfl,front,all⟩ := split_base dst
  cases seps with
  | nil =>
    rw [List.append_nil] at ends
    rcases front with rfl | plain
    · cases ends
    · exact absurd ends plain
  | cons sep seps =>
    rw [joined_base front all]
    rcases List.eq_nil_or_concat seps with rfl | ⟨more,sep',rfl⟩
    · refine .inl ⟨?_,by simp⟩
      rintro ⟨long,-,second⟩
      rcases front with rfl | plain
      · simp at long
      · apply plain
        unfold lastChar
        have place : (base ++ [sep]).length - 2 = base.length - 1 := by simp
        rw [place] at second
        have inside : base.length - 1 < base.length := by
          simp only [List.length_append,List.length_singleton] at long
          omega
        rwa [charAt,List.getD_append _ _ _ _ inside] at second
    · right
      have long : (base ++ sep :: more.concat sep').length = base.length + more.length + 2 := by
        simp only [List.concat_eq_append,List.length_append,List.length_cons,List.length_nil]
        omega
      have less : (base ++ sep :: rest).length < (base ++ sep :: more.concat sep').length + rest.length := by
        rw [long,List.length_append,List.length_cons]
        omega
      refine ⟨⟨by omega,ends,?_⟩,less⟩
      rw [long,charAt,List.getD_append_right _ _ _ _ (by omega)]
      have place : base.length + more.length + 2 - 2 - base.length = more.length := by omega
      have inside : more.length < (sep :: more.concat sep').length := by
        rw [List.length_cons,List.length_concat]
        omega
      rw [place,List.getD_eq_getElem _ _ inside]
      exact all _ (List.getElem_mem inside)

end Join

section Rule

variable {setting : Setting} {src dst rest fnm : Text} {r : PathMapRule}

/-- What a source and a destination make of a name: the source, in its canonical form, ends in it at the boundary of a component. -/
def destination (src dst fnm : Text) : Option Text :=
  if fnm.take src.length ≠ src then none
  else
    let rest := fnm.drop src.length
    if rest = [] then some dst
    else if isSeparator (charAt rest 0) then some (joined dst rest.tail)
    else if isSeparator (lastChar src) then some (joined dst rest)
    else none

def PathMapRule.mapped (setting : Setting) (fnm : Text) (r : PathMapRule) : Option Text :=
  (r.considered setting).bind fun rule => (destination (canonicPathMapFileName rule.1) rule.2 fnm).filter setting.found

/-- When the name goes on behind the source. `src` is the source as it is written, `k` the length of its canonical form. -/
structure Boundary (setting : Setting) (src dst fnm rest : Text) (k : Nat) : Prop where
  separator : isSeparator (charAt rest 0) → ¬TwoSeparators dst ∨ (¬setting.found (dst ++ rest.tail) ∧ ¬setting.found (joined dst rest.tail))
  source : ¬isSeparator (charAt rest 0) → isSeparator (lastChar (canonicPathMapFileName src)) →
    (¬isSeparator (lastChar dst) ∧ isSeparator (lastSrcChar src k)) ∨
    (¬setting.found (joined dst rest) ∧
      ((¬isSeparator (lastChar dst) ∧ ¬isSeparator (lastSrcChar src k)) ∨ ¬setting.found (dst ++ slash :: rest)))
  middle : ¬isSeparator (charAt rest 0) → ¬isSeparator (lastChar (canonicPathMapFileName src)) →
    (¬isSeparator (lastChar dst) ∧ ¬isSeparator (lastSrcChar src k)) ∨ (k ≠ 0 ∧ ¬setting.found (dst ++ fnm.drop (k - 1)))

/-- A rule that does what it should with a name. -/
def Sound (setting : Setting) (fnm : Text) (r : PathMapRule) : Prop :=
  ∀ rule, r.considered setting = some rule → ∀ rest, fnm = canonicPathMapFileName rule.1 ++ rest → rest ≠ [] →
    Boundary setting rule.1 rule.2 fnm rest (canonicPathMapFileName rule.1).length

theorem filter_same {p : Text → Bool} {a b : Text} (differ : a ≠ b) : (some a).filter p = (some b).filter p ↔ ¬p a ∧ ¬p b := by
  cases first : p a with
  | false =>
    cases second : p b with
    | false => simp [Option.filter,first,second]
    | true => simp [Option.filter,first,second]
  | true =>
    cases second : p b with
    | false => simp [Option.filter,first,second]
    | true => simp [Option.filter,first,second,differ]

theorem filter_none {p : Text → Bool} {a : Text} : (some a).filter p = none ↔ ¬p a := by
  cases first : p a with
  | false => simp [Option.filter,first]
  | true => simp [Option.filter,first]

theorem separator_slash {c : UInt8} (separator : isSeparator c) (plain : c ≠ backslash) : c = slash := by
  simpa [isSeparator,plain] using separator

/-- In front of a separator. -/
theorem replaced_separator {tail : Text} :
    ((if isSeparator (lastChar dst) then pure (some (dst ++ tail)) else pure (some (dst ++ slash :: tail)) : Code (Option Text)) >>=
      fun buf => pure (buf.filter setting.found)) = .ok ((some (joined dst tail)).filter setting.found) ↔
    ¬TwoSeparators dst ∨ (¬setting.found (dst ++ tail) ∧ ¬setting.found (joined dst tail)) := by
  by_cases ends : isSeparator (lastChar dst)
  · rw [if_pos ends]
    rcases @joined_cases dst tail ends with ⟨one,same⟩ | ⟨two,less⟩
    · rw [same]
      exact iff_of_true rfl (.inl one)
    · have differ : dst ++ tail ≠ joined dst tail := fun same => by
        rw [← same,List.length_append] at less
        exact Nat.lt_irrefl _ less
      simp only [Code.pure_eq,Code.ok_bind,Except.ok.injEq,filter_same differ,not_true_eq_false,two,false_or]
  · rw [if_neg ends,joined_plain ends]
    exact iff_of_true rfl (.inl fun two => ends two.2.1)

theorem joined_ne (ends : isSeparator (lastChar dst)) : dst ++ slash :: rest ≠ joined dst rest := by
  intro same
  have less : (joined dst rest).length ≤ dst.length + rest.length := by
    rcases @joined_cases dst rest ends with ⟨-,same⟩ | ⟨-,less⟩
    · rw [same,List.length_append]
    · exact Nat.le_of_lt less
  rw [← same,List.length_append,List.length_cons] at less
  omega

/-- Behind a source that ends with a separator. `written` says that the source as it is written has one there. -/
theorem replaced_source {written : Bool} :
    ((if ¬isSeparator (lastChar dst) ∧ ¬written then pure none else pure (some (dst ++ slash :: rest)) : Code (Option Text)) >>=
      fun buf => pure (buf.filter setting.found)) = .ok ((some (joined dst rest)).filter setting.found) ↔
    (¬isSeparator (lastChar dst) ∧ written) ∨ (¬setting.found (joined dst rest) ∧ ((¬isSeparator (lastChar dst) ∧ ¬written) ∨
      ¬setting.found (dst ++ slash :: rest))) := by
  by_cases ends : isSeparator (lastChar dst)
  · rw [if_neg (fun both => both.1 ends)]
    simp only [Code.pure_eq,Code.ok_bind,Except.ok.injEq,filter_same (joined_ne ends),ends,not_true_eq_false,false_and,false_or]
    exact and_comm
  · rw [joined_plain ends]
    cases written with
    | true =>
      rw [if_neg (fun both => both.2 rfl)]
      exact iff_of_true rfl (.inl ⟨ends,rfl⟩)
    | false =>
      rw [if_pos ⟨ends,Bool.false_ne_true⟩]
      simp only [Code.pure_eq,Code.ok_bind,Except.ok.injEq,ends,not_false_eq_true,and_true,and_self,true_or,Bool.false_eq_true,and_false,
        false_or]
      rw [eq_comm]
      exact filter_none

/-- Within a component. -/
theorem replaced_middle {skipped : Prop} [Decidable skipped] {k : Nat} {buf : Text} :
    ((if skipped then pure none else if k = 0 then .error .fault else pure (some buf) : Code (Option Text)) >>=
      fun buf => pure (buf.filter setting.found)) = .ok ((none : Option Text).filter setting.found) ↔
    skipped ∨ (k ≠ 0 ∧ ¬setting.found buf) := by
  by_cases skip : skipped
  · rw [if_pos skip]
    exact iff_of_true rfl (.inl skip)
  rw [if_neg skip]
  by_cases zero : k = 0
  · rw [if_pos zero]
    refine iff_of_false (fun same => by cases same) ?_
    rintro (skip' | ⟨some_,-⟩)
    · exact skip skip'
    · exact some_ zero
  · rw [if_neg zero]
    simp only [Code.pure_eq,Code.ok_bind,Except.ok.injEq,skip,false_or,ne_eq,zero,not_false_eq_true,true_and]
    exact filter_none

theorem ends_slash {cs : Text} (plain : ∀ c ∈ cs, c ≠ 0 ∧ c ≠ backslash) (ended : isSeparator (lastChar cs)) : ∃ start, cs = start ++ [slash] := by
  rcases List.eq_nil_or_concat cs with rfl | ⟨start,last,rfl⟩
  · cases ended
  · rw [List.concat_eq_append] at ended plain
    rw [lastChar_append] at ended
    have plainLast := plain last (List.mem_append_right _ (List.mem_cons_self ..))
    exact ⟨start,by rw [List.concat_eq_append,separator_slash ended plainLast.2]⟩

theorem replaceSource_iff (plain : ∀ c ∈ canonicPathMapFileName src ++ rest, c ≠ 0 ∧ c ≠ backslash) (more : rest ≠ []) :
    (replaceSource src dst (canonicPathMapFileName src ++ rest) (canonicPathMapFileName src).length >>=
        fun buf => pure (buf.filter setting.found)) =
      .ok ((destination (canonicPathMapFileName src) dst (canonicPathMapFileName src ++ rest)).filter setting.found) ↔
    Boundary setting src dst (canonicPathMapFileName src ++ rest) rest (canonicPathMapFileName src).length := by
  cases rest with
  | nil => exact absurd rfl more
  | cons c tail =>
    generalize front : canonicPathMapFileName src = cs at plain ⊢
    have plainC := plain c (List.mem_append_right _ (List.mem_cons_self ..))
    have here : charAt (cs ++ c :: tail) cs.length = c := by
      rw [charAt,List.getD_append_right _ _ _ _ (Nat.le_refl _),Nat.sub_self]
      rfl
    have first : charAt (c :: tail) 0 = c := rfl
    have behind : (cs ++ c :: tail).drop (cs.length + 1) = tail := by
      rw [← List.drop_drop,List.drop_left]
      rfl
    unfold replaceSource destination
    rw [here,if_neg plainC.1,behind,List.drop_left]
    simp only [List.take_left',ne_eq,not_true_eq_false,if_false,List.cons_ne_nil,first,List.tail_cons]
    by_cases separator : isSeparator c
    · rw [if_neg (not_not.mpr separator),if_pos separator]
      obtain rfl := separator_slash separator plainC.2
      refine replaced_separator.trans ⟨fun fine => ?_,fun boundary => boundary.separator separator⟩
      exact ⟨fun _ => fine,fun other => absurd separator other,fun other => absurd separator other⟩
    rw [if_pos separator,if_neg separator]
    by_cases ended : isSeparator (lastChar cs)
    · obtain ⟨start,rfl⟩ := ends_slash (fun c member => plain c (List.mem_append_left _ member)) ended
      have some_ : (start ++ [slash]).length ≠ 0 := by simp
      have name : (start ++ [slash] ++ c :: tail).drop ((start ++ [slash]).length - 1) = slash :: c :: tail := by
        rw [List.length_append,List.length_singleton,Nat.add_sub_cancel,List.append_assoc,List.drop_left]
        rfl
      rw [if_pos ended,if_neg some_,name]
      refine replaced_source.trans ⟨fun fine => ?_,fun boundary => boundary.source separator (by rw [front]; exact ended)⟩
      refine ⟨fun other => absurd other separator,fun _ _ => fine,fun _ other => ?_⟩
      rw [front] at other
      exact absurd ended other
    · rw [if_neg ended]
      refine replaced_middle.trans ⟨fun fine => ?_,fun boundary => boundary.middle separator (by rw [front]; exact ended)⟩
      refine ⟨fun other => absurd other separator,fun _ other => ?_,fun _ _ => fine⟩
      rw [front] at other
      exact absurd other ended

theorem mapRule_iff (plain : ∀ c ∈ fnm, c ≠ 0 ∧ c ≠ backslash) :
    mapRule setting fnm r = .ok (r.mapped setting fnm) ↔ Sound setting fnm r := by
  unfold mapRule PathMapRule.mapped Sound
  cases r.considered setting with
  | none => exact iff_of_true rfl nofun
  | some rule =>
    simp only [Option.bind_some,Option.some.injEq,forall_eq']
    by_cases front : fnm.take (canonicPathMapFileName rule.1).length = canonicPathMapFileName rule.1
    · obtain ⟨rest,rfl⟩ : ∃ rest, fnm = canonicPathMapFileName rule.1 ++ rest :=
        ⟨fnm.drop (canonicPathMapFileName rule.1).length,by
          conv_lhs => rw [← List.take_append_drop (canonicPathMapFileName rule.1).length fnm,front]⟩
      rw [if_neg (not_not.mpr front)]
      simp only [List.append_cancel_left_eq,forall_eq']
      rcases List.eq_nil_or_concat rest with rfl | ⟨more,last,rfl⟩
      · refine iff_of_true ?_ fun none_ => absurd rfl none_
        have none_ : charAt (canonicPathMapFileName rule.1) (canonicPathMapFileName rule.1).length = 0 := by simp [charAt]
        rw [List.append_nil,replaceSource,none_,if_pos rfl,destination,List.take_length,List.drop_length]
        simp
      · have some_ : more.concat last ≠ [] := by simp
        rw [replaceSource_iff plain some_]
        exact ⟨fun boundary _ => boundary,fun boundary => boundary some_⟩
    · rw [if_pos front]
      refine iff_of_true ?_ ?_
      · rw [destination,if_pos front]
        rfl
      · rintro rest rfl
        exact absurd List.take_left front

end Rule

section Rules

variable {setting : Setting} {fnm : Text} {rules : List PathMapRule} {i k : Nat} {buf : Text}

/-- The first rule that maps a name. -/
def firstMapped (setting : Setting) (fnm : Text) : Nat → List PathMapRule → Option (Nat × Text)
  | _, [] => none
  | i, r :: rules => match r.mapped setting fnm with
    | none => firstMapped setting fnm (i + 1) rules
    | some buf => some (i,buf)

theorem mapFileName_number (run : mapFileName setting fnm i rules = .ok (some (k,buf))) : i ≤ k := by
  induction rules generalizing i with
  | nil => cases run
  | cons r rules ih =>
    rw [mapFileName] at run
    cases step : mapRule setting fnm r with
    | error stop =>
      rw [step] at run
      cases run
    | ok found =>
      rw [step,Code.ok_bind] at run
      cases found with
      | none => exact Nat.le_of_succ_le (ih run)
      | some buf' =>
        cases run
        exact Nat.le_refl _

theorem firstMapped_number (run : firstMapped setting fnm i rules = some (k,buf)) : i ≤ k := by
  induction rules generalizing i with
  | nil => cases run
  | cons r rules ih =>
    rw [firstMapped] at run
    cases found : r.mapped setting fnm with
    | none =>
      rw [found] at run
      exact Nat.le_of_succ_le (ih run)
    | some buf' =>
      rw [found] at run
      cases run
      exact Nat.le_refl _

theorem mapFileName_iff (plain : ∀ c ∈ fnm, c ≠ 0 ∧ c ≠ backslash) : mapFileName setting fnm i rules = .ok (firstMapped setting fnm i rules) ↔
    ∀ front r back, rules = front ++ r :: back → (∀ other ∈ front, other.mapped setting fnm = none) → Sound setting fnm r := by
  induction rules generalizing i with
  | nil =>
    refine iff_of_true rfl fun front r back empty => ?_
    simp at empty
  | cons r rules ih =>
    have split : (∀ front r' back, r :: rules = front ++ r' :: back → (∀ other ∈ front, other.mapped setting fnm = none) →
        Sound setting fnm r') ↔ Sound setting fnm r ∧ (r.mapped setting fnm = none →
          ∀ front r' back, rules = front ++ r' :: back → (∀ other ∈ front, other.mapped setting fnm = none) → Sound setting fnm r') := by
      constructor
      · intro all
        refine ⟨all [] r rules rfl (fun _ none_ => absurd none_ List.not_mem_nil),fun none_ front r' back same before => ?_⟩
        exact all (r :: front) r' back (by rw [same]; rfl) (List.forall_mem_cons.mpr ⟨none_,before⟩)
      · rintro ⟨here,later⟩ front r' back same before
        cases front with
        | nil =>
          cases same
          exact here
        | cons other front =>
          cases same
          obtain ⟨none_,before⟩ := List.forall_mem_cons.mp before
          exact later none_ front r' back rfl before
    rw [split,← mapRule_iff plain,mapFileName,firstMapped]
    cases step : mapRule setting fnm r with
    | error stop => exact iff_of_false (fun same => by cases same) fun both => by cases both.1
    | ok found =>
      rw [Code.ok_bind]
      cases expected : r.mapped setting fnm with
      | none =>
        cases found with
        | none => exact ih.trans ⟨fun all => ⟨rfl,fun _ => all⟩,fun both => both.2 rfl⟩
        | some buf =>
          refine iff_of_false (fun same => ?_) fun both => by cases both.1
          have number := firstMapped_number (Except.ok.inj same).symm
          omega
      | some buf =>
        cases found with
        | none =>
          refine iff_of_false (fun same => ?_) fun both => by cases both.1
          have number := mapFileName_number same
          omega
        | some buf' =>
          constructor
          · intro same
            cases same
            exact ⟨rfl,nofun⟩
          · rintro ⟨same,-⟩
            cases same
            rfl

/-- The first rule whose source ends in the name at a boundary maps it, and no other one. -/
def MapsAtBoundaries (setting : Setting) (rules : List PathMapRule) (name : Text) : Prop :=
  mapFileName setting (canonicPathMapFileName name) 0 rules = .ok (firstMapped setting (canonicPathMapFileName name) 0 rules)

/-- So it is if and only if all rules up to the one that maps the name are sound. -/
theorem mapsAtBoundaries_iff (setting : Setting) (rules : List PathMapRule) (name : Text) : MapsAtBoundaries setting rules name ↔
    ∀ front r back, rules = front ++ r :: back →
      (∀ other ∈ front, other.mapped setting (canonicPathMapFileName name) = none) → Sound setting (canonicPathMapFileName name) r :=
  mapFileName_iff (canonic_plain name)

/-- From `/a` to `/x/`, the name `/ab` becomes `/x/ab`. -/
theorem mapped_within_component : ¬MapsAtBoundaries ⟨.toClient,fun _ => true,none,none,fun _ => true⟩
    [⟨some [slash,0x61],some [slash,0x78,slash],none,none,none,none⟩] [slash,0x61,0x62] := by
  unfold MapsAtBoundaries
  decide

end Rules


end Tcf.PathMap
