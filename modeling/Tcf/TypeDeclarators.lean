import Tcf.TypeNames

/-! The types that C gives to abstract declarators, and when `type_name` makes them. -/
namespace Tcf.Expressions

open Json

section Meaning

/-- A type of C over named types. -/
inductive CType (T : Type) where
  | named (type : T)
  | pointer (type : CType T)
  | array (element : CType T) (length : Nat)
  deriving DecidableEq, Repr

/-- A length of zero represents a pointer. -/
def TypeSymbol.denotes {T : Type} : TypeSymbol T → CType T
  | .found type => .named type
  | .array base length => if length = 0 then .pointer base.denotes else .array base.denotes length

/-- A positive number as the lexer stores it. -/
structure Length where
  n : Nat
  typeClass : TypeClass
  size : Nat
  flags : Flags
  positive : 0 < n
  small : n < 2 ^ 64
  isNumber : typeClass = .integer ∨ typeClass = .cardinal
  kept : typeClass = .integer → n < 2 ^ (8 * size - 1) ∨ size = 8

/-- Pointers, then an inner declarator in parentheses, then the lengths of arrays. -/
inductive Declarator where
  | plain (pointers : Nat) (lengths : List Length) (nonempty : 0 < pointers ∨ lengths ≠ [])
  | nested (pointers : Nat) (inner : Declarator) (lengths : List Length)

def mark (ch : Char) : Token := ⟨textChar ch,none,noFlags⟩

@[simp] theorem mark_sy (ch : Char) : (mark ch).sy = textChar ch := rfl

@[simp] theorem textSy_cons (token : Token) (symbols : Symbols) : textSy (token :: symbols) = token.sy := rfl

def Length.symbols (length : Length) : Symbols := [mark '[',⟨.val,some ⟨length.typeClass,.number length.size length.n⟩,length.flags⟩,mark ']']

def pointersTo {T : Type} : Nat → CType T → CType T
  | 0, type => type
  | n+1, type => pointersTo n (.pointer type)

/-- The first length is that of the outer array. -/
def arraysOf {T : Type} (lengths : List Length) (type : CType T) : CType T := lengths.foldr (fun length element => .array element length.n) type

namespace Declarator

def symbols : Declarator → Symbols
  | plain pointers lengths _ => List.replicate pointers (mark '*') ++ lengths.flatMap Length.symbols
  | nested pointers inner lengths =>
    List.replicate pointers (mark '*') ++ (mark '(' :: (inner.symbols ++ (mark ')' :: lengths.flatMap Length.symbols)))

/-- The type that is declared when the declarator is applied to a type. -/
def meaning {T : Type} : Declarator → CType T → CType T
  | plain pointers lengths _, type => arraysOf lengths (pointersTo pointers type)
  | nested pointers inner lengths, type => inner.meaning (arraysOf lengths (pointersTo pointers type))

def count : Declarator → Nat
  | plain pointers lengths _ => pointers + lengths.length
  | nested pointers inner lengths => pointers + lengths.length + inner.count

def lengths : Declarator → List Length
  | plain _ lengths _ => lengths
  | nested _ inner lengths => lengths ++ inner.lengths

def depth : Declarator → Nat
  | plain _ _ _ => 1
  | nested _ inner _ => inner.depth + 1

end Declarator

/-- Nothing behind a declarator goes on with it. -/
def Ends (symbols : Symbols) : Prop := textSy symbols ≠ textChar '*' ∧ textSy symbols ≠ textChar '(' ∧ textSy symbols ≠ textChar '['

end Meaning

section Reading

variable {T V : Type} {env : Environment T V} {mode : Mode} {buf : List Int} {rest : Symbols}

def tooLong : Raised := .bufferOverflow "Type expression is too long"

/-- What the code has for a length. -/
def Length.entry (mode : Mode) (length : Length) : Int := if mode = .normal then Int.bmod length.n (2 ^ 32) else 0

/-- A length that is not refused. -/
def Length.Taken (mode : Mode) (length : Length) : Prop := mode = .normal → 0 < length.entry mode

/-- A buffer of entries, unless there are too many. -/
def filled (entries : List Int) (rest : Symbols) : Parsed (List Int × Symbols) := if entries.length ≤ 64 then .ok (entries,rest) else .error tooLong

theorem push_eq (buf : List Int) (item : Int) : push buf item = if buf.length < 64 then .ok (buf ++ [item]) else .error tooLong := by
  unfold push typeExprLength tooLong
  split <;> split <;> first | rfl | omega

theorem pushAll_eq (short : buf.length ≤ 64) (items : List Int) :
    pushAll buf items = if (buf ++ items).length ≤ 64 then .ok (buf ++ items) else .error tooLong := by
  induction items generalizing buf with
  | nil => simp [pushAll,short]
  | cons item items ih =>
    rw [pushAll,push_eq]
    by_cases more : buf.length < 64
    · rw [if_pos more,Parsed.ok_bind,ih (by simp; omega)]
      simp
    · have long : ¬(buf ++ item :: items).length ≤ 64 := by
        simp only [List.length_append,List.length_cons]
        omega
      rw [if_neg more,if_neg long,Parsed.error_bind]

theorem readPointers_stop (other : textSy rest ≠ textChar '*') : readPointers buf rest = .ok (buf,rest) := by
  cases rest with
  | nil => rfl
  | cons token rest =>
    rw [textSy_cons] at other
    rw [readPointers,if_neg other]

theorem readPointers_run (pointers : Nat) (short : buf.length ≤ 64) (other : textSy rest ≠ textChar '*') :
    readPointers buf (List.replicate pointers (mark '*') ++ rest) = filled (buf ++ List.replicate pointers 1) rest := by
  induction pointers generalizing buf with
  | zero => simp [filled,short,readPointers_stop other]
  | succ pointers ih =>
    rw [List.replicate_succ,List.cons_append,readPointers,mark_sy,if_pos rfl,push_eq]
    by_cases more : buf.length < 64
    · rw [if_pos more,Parsed.ok_bind,ih (by simp; omega),List.append_assoc,List.replicate_succ,List.singleton_append]
    · have long : ¬(buf ++ List.replicate (pointers + 1) 1).length ≤ 64 := by
        simp only [List.length_append,List.length_replicate]
        omega
      rw [if_neg more,filled,if_neg long,Parsed.error_bind]

theorem toInt_length (length : Length) :
    ∃ n, toInt env mode ⟨length.typeClass,.number length.size length.n⟩ = .ok n ∧ Int.bmod n (2 ^ 32) = length.entry mode := by
  unfold toInt Length.entry
  by_cases normal : mode = .normal
  · simp only [normal,ne_eq,not_true_eq_false,if_false,if_true]
    have wide : Int.bmod (signed 8 length.n) (2 ^ 32) = Int.bmod length.n (2 ^ 32) := Int.bmod_bmod_of_dvd (by decide)
    rcases length.isNumber with integer | cardinal
    · rw [integer]
      refine ⟨_,rfl,?_⟩
      rcases length.kept integer with less | eight
      · have same : signed length.size length.n = length.n := by
          have := length.positive
          have sized : 8 * length.size ≠ 0 := by
            intro zero
            rw [zero] at less
            omega
          have double : 2 ^ (8 * length.size) = 2 * 2 ^ (8 * length.size - 1) := by
            rw [← Nat.pow_succ',Nat.succ_eq_add_one,Nat.sub_add_cancel (by omega)]
          have half : length.n < 2 ^ (8 * length.size) / 2 := by omega
          unfold signed
          generalize 2 ^ (8 * length.size) = whole at half
          exact Int.bmod_eq_of_le (by omega) (by omega)
        rw [same]
      · rw [eight]
        exact wide
    · rw [cardinal]
      exact ⟨_,rfl,wide⟩
  · simp [normal]

theorem readLength_taken {length : Length} (taken : length.Taken mode) (buf : List Int) :
    readLength env mode buf ⟨.val,some ⟨length.typeClass,.number length.size length.n⟩,length.flags⟩ =
      if buf.length < 64 then .ok (buf ++ [length.entry mode]) else .error tooLong := by
  obtain ⟨n,read,entry⟩ := @toInt_length T V env mode length
  unfold readLength typeExprLength
  by_cases more : buf.length < 64
  · have positive : ¬(mode = .normal ∧ length.entry mode < 1) := by
      rintro ⟨normal,less⟩
      have := taken normal
      omega
    rw [if_pos more]
    simp only [Nat.not_le.mpr more,if_false,read,Parsed.ok_bind,entry,if_neg positive,Parsed.pure_eq]
  · rw [if_neg more]
    simp only [Nat.not_lt.mp more,if_true]
    rfl

theorem readLengths_stop (other : textSy rest ≠ textChar '[') : readLengths env mode buf rest = .ok (buf,rest) := by
  cases rest with
  | nil => rfl
  | cons token rest =>
    rw [textSy_cons] at other
    rw [readLengths.eq_def]
    simp only [if_neg other]

theorem readLengths_run {lengths : List Length} (taken : ∀ length ∈ lengths, length.Taken mode) (short : buf.length ≤ 64)
    (other : textSy rest ≠ textChar '[') :
    readLengths env mode buf (lengths.flatMap Length.symbols ++ rest) = filled (buf ++ lengths.map (Length.entry mode)) rest := by
  induction lengths generalizing buf with
  | nil => simp [filled,short,readLengths_stop other]
  | cons length lengths ih =>
    obtain ⟨first,later⟩ := List.forall_mem_cons.mp taken
    have symbols : (length :: lengths).flatMap Length.symbols ++ rest = mark '[' ::
        ⟨.val,some ⟨length.typeClass,.number length.size length.n⟩,length.flags⟩ :: mark ']' :: (lengths.flatMap Length.symbols ++ rest) := rfl
    rw [symbols,readLengths.eq_def]
    simp only [mark_sy,if_true,readLength_taken first]
    by_cases more : buf.length < 64
    · rw [if_pos more,Parsed.ok_bind,ih later (by simp; omega),List.append_assoc,List.map_cons,List.singleton_append]
    · have long : ¬(buf ++ (length :: lengths).map (Length.entry mode)).length ≤ 64 := by
        simp only [List.length_append,List.length_map,List.length_cons]
        omega
      rw [if_neg more,filled,if_neg long,Parsed.error_bind]

/-- The list that a declarator becomes. -/
def Declarator.flat (mode : Mode) : Declarator → List Int
  | plain pointers lengths _ => List.replicate pointers 1 ++ (lengths.map (Length.entry mode)).reverse
  | nested pointers inner lengths => List.replicate pointers 1 ++ (lengths.map (Length.entry mode)).reverse ++ inner.flat mode

theorem flat_length (mode : Mode) (declarator : Declarator) : (declarator.flat mode).length = declarator.count := by
  induction declarator with
  | plain pointers lengths nonempty => simp [Declarator.flat,Declarator.count]
  | nested pointers inner lengths ih => simp [Declarator.flat,Declarator.count,ih,Nat.add_assoc]

theorem depth_le (declarator : Declarator) : declarator.depth ≤ declarator.symbols.length + 1 := by
  induction declarator with
  | plain pointers lengths nonempty => simp [Declarator.depth]
  | nested pointers inner lengths ih =>
    simp only [Declarator.depth,Declarator.symbols,List.length_append,List.length_cons,List.length_replicate]
    omega

theorem filled_bind {α : Type} (entries : List Int) (symbols : Symbols) (next : List Int × Symbols → Parsed α) :
    (filled entries symbols >>= next) = if entries.length ≤ 64 then next (entries,symbols) else .error tooLong := by
  unfold filled
  split <;> rfl

/-- The lengths of a declarator go on neither as pointers nor as a parenthesis. -/
theorem behind_pointers (lengths : List Length) (ends : Ends rest) :
    textSy (lengths.flatMap Length.symbols ++ rest) ≠ textChar '*' ∧ textSy (lengths.flatMap Length.symbols ++ rest) ≠ textChar '(' := by
  cases lengths with
  | nil => exact ⟨ends.1,ends.2.1⟩
  | cons length lengths =>
    have head : textSy ((length :: lengths).flatMap Length.symbols ++ rest) = textChar '[' := rfl
    rw [head]
    exact ⟨by decide,by decide⟩

theorem parenthesis_ends (symbols : Symbols) : Ends (mark ')' :: symbols) := by
  unfold Ends
  rw [textSy_cons,mark_sy]
  exact ⟨by decide,by decide,by decide⟩

/-- What follows the pointers and the inner declarator. -/
theorem fill_lengths {lengths : List Length} {inner : List Int} (taken : ∀ length ∈ lengths, length.Taken mode) (short : buf.length ≤ 64)
    (ends : Ends rest) :
    (do
      let (arrBuf,symbols) ← readLengths env mode [] (lengths.flatMap Length.symbols ++ rest)
      let buf ← pushAll buf arrBuf.reverse
      let buf ← pushAll buf inner
      pure (buf,symbols) : Parsed (List Int × Symbols)) = filled (buf ++ (lengths.map (Length.entry mode)).reverse ++ inner) rest := by
  rw [readLengths_run taken (by simp) ends.2.2,filled_bind,List.nil_append]
  simp only [pushAll_eq short]
  by_cases few : (buf ++ (lengths.map (Length.entry mode)).reverse).length ≤ 64
  · have fewer : (lengths.map (Length.entry mode)).length ≤ 64 := by
      simp only [List.length_append,List.length_reverse] at few
      omega
    rw [if_pos fewer,if_pos few,Parsed.ok_bind,pushAll_eq few,filled]
    split <;> rfl
  · have long : ¬(buf ++ (lengths.map (Length.entry mode)).reverse ++ inner).length ≤ 64 := by
      rw [List.length_append]
      omega
    rw [if_neg few,filled,if_neg long]
    split <;> rfl

theorem typeExpression_run {declarator : Declarator} (taken : ∀ length ∈ declarator.lengths, length.Taken mode) (ends : Ends rest) {fuel : Nat}
    (enough : declarator.depth ≤ fuel) :
    typeExpression env mode fuel (declarator.symbols ++ rest) = filled (declarator.flat mode) rest := by
  induction declarator generalizing fuel rest with
  | plain pointers lengths nonempty =>
    cases fuel with
    | zero => simp [Declarator.depth] at enough
    | succ fuel =>
      obtain ⟨not_pointer,not_inner⟩ := behind_pointers lengths ends
      rw [typeExpression,Declarator.symbols,List.append_assoc,readPointers_run pointers (by simp) not_pointer,filled_bind,List.nil_append]
      by_cases few : (List.replicate pointers (1 : Int)).length ≤ 64
      · simp only [if_pos few,if_neg not_inner,pure_bind]
        have filled_lengths := @fill_lengths T V env mode _ rest lengths [] taken few ends
        rw [List.append_nil] at filled_lengths
        exact filled_lengths
      · have long : ¬(Declarator.flat mode (.plain pointers lengths nonempty)).length ≤ 64 := by
          rw [Declarator.flat,List.length_append]
          omega
        rw [if_neg few,filled,if_neg long]
  | nested pointers inner lengths ih =>
    cases fuel with
    | zero => simp [Declarator.depth] at enough
    | succ fuel =>
      obtain ⟨own,inners⟩ := List.forall_mem_append.mp taken
      have symbols : (Declarator.nested pointers inner lengths).symbols ++ rest =
          List.replicate pointers (mark '*') ++ (mark '(' :: (inner.symbols ++ (mark ')' :: (lengths.flatMap Length.symbols ++ rest)))) := by
        simp [Declarator.symbols]
      have not_pointer : textSy (mark '(' :: (inner.symbols ++ (mark ')' :: (lengths.flatMap Length.symbols ++ rest)))) ≠ textChar '*' := by
        rw [textSy_cons,mark_sy]
        decide
      have run := ih inners (parenthesis_ends (lengths.flatMap Length.symbols ++ rest)) (Nat.le_of_succ_le_succ enough)
      rw [typeExpression,symbols,readPointers_run pointers (by simp) not_pointer,filled_bind,List.nil_append]
      have total : (Declarator.flat mode (.nested pointers inner lengths)).length =
          (List.replicate pointers (1 : Int)).length + lengths.length + (inner.flat mode).length := by
        simp [Declarator.flat,Nat.add_assoc]
      by_cases few : (List.replicate pointers (1 : Int)).length ≤ 64
      · simp only [if_pos few,textSy_cons,mark_sy,if_true,List.tail_cons,run,filled_bind]
        by_cases inner_few : (inner.flat mode).length ≤ 64
        · simp only [if_pos inner_few,pure_bind]
          exact fill_lengths own few ends
        · rw [if_neg inner_few,filled,if_neg (by omega)]
      · rw [if_neg few,filled,if_neg (by omega)]

end Reading

section Types

variable {T V : Type} {env : Environment T V} {mode : Mode}

/-- What the loop of `type_name` does with one item, in types of C. -/
def applyItem (type : CType T) (item : Int) : CType T :=
  if item = 1 ∨ item % 2 ^ 64 = 0 then .pointer type else .array type (item % 2 ^ 64).toNat

theorem applyExpression_denotes (type : TypeSymbol T) (items : List Int) :
    (applyExpression type items).denotes = items.foldl applyItem type.denotes := by
  induction items generalizing type with
  | nil => rfl
  | cons item items ih =>
    rw [applyExpression,ih,List.foldl_cons]
    congr 1
    unfold getArraySymbol applyItem
    have zero : (item % 2 ^ 64).toNat = 0 ↔ item % 2 ^ 64 = 0 := by omega
    by_cases one : item = 1
    · rw [if_pos one,if_pos (.inl one)]
      rfl
    · rw [if_neg one,TypeSymbol.denotes]
      simp only [zero,one,false_or]

/-- A length that becomes an array of that length: none but in normal mode, and there those from 2 to 2^31 - 1. -/
def Length.Faithful (mode : Mode) (length : Length) : Prop := mode = .normal ∧ 2 ≤ length.n ∧ length.n < 2 ^ 31

theorem entry_faithful {length : Length} (faithful : length.Faithful mode) : length.entry mode = length.n := by
  obtain ⟨normal,low,high⟩ := faithful
  rw [Length.entry,if_pos normal]
  exact Int.bmod_eq_of_le (by omega) (by omega)

theorem applyItem_pointers (pointers : Nat) (type : CType T) : (List.replicate pointers 1).foldl applyItem type = pointersTo pointers type := by
  induction pointers generalizing type with
  | zero => rfl
  | succ pointers ih =>
    rw [List.replicate_succ,List.foldl_cons,ih,applyItem,if_pos (.inl rfl)]
    rfl

theorem applyItem_faithful {length : Length} (faithful : length.Faithful mode) (type : CType T) :
    applyItem type (length.entry mode) = .array type length.n := by
  rw [entry_faithful faithful,applyItem]
  obtain ⟨-,low,high⟩ := faithful
  have same : (length.n : Int) % 2 ^ 64 = length.n := Int.emod_eq_of_lt (by omega) (by omega)
  rw [same,if_neg (by omega),Int.toNat_natCast]

theorem applyItem_arrays {lengths : List Length} (faithful : ∀ length ∈ lengths, length.Faithful mode) (type : CType T) :
    (lengths.map (Length.entry mode)).reverse.foldl applyItem type = arraysOf lengths type := by
  rw [List.foldl_reverse]
  induction lengths with
  | nil => rfl
  | cons length lengths ih =>
    obtain ⟨first,later⟩ := List.forall_mem_cons.mp faithful
    rw [List.map_cons,List.foldr_cons,ih later,applyItem_faithful first]
    rfl

theorem flat_meaning {declarator : Declarator} (faithful : ∀ length ∈ declarator.lengths, length.Faithful mode) (type : CType T) :
    (declarator.flat mode).foldl applyItem type = declarator.meaning type := by
  induction declarator generalizing type with
  | plain pointers lengths nonempty =>
    have own : ∀ length ∈ lengths, length.Faithful mode := faithful
    rw [Declarator.flat,List.foldl_append,applyItem_pointers,applyItem_arrays own]
    rfl
  | nested pointers inner lengths ih =>
    obtain ⟨own,inners⟩ := List.forall_mem_append.mp faithful
    rw [Declarator.flat,List.foldl_append,List.foldl_append,applyItem_pointers,applyItem_arrays own,ih inners]
    rfl

/-- All symbols up to `rest` are read, as the type that C gives to the declarator. -/
def Builds (env : Environment T V) (mode : Mode) (symbols rest : Symbols) (type : T) (declarator : Declarator) : Prop :=
  ∃ made, typeName env mode symbols = .ok (some made,rest) ∧ made.denotes = declarator.meaning (.named type)

/-- A declarator of at most 64 pointers and arrays gives the type of C, a longer one is refused. -/
theorem typeName_declarator {symbols rest : Symbols} {type : T} (declarator : Declarator) (active : mode ≠ .skip) (ends : Ends rest)
    (base : readType env mode symbols = .ok (some (type,declarator.symbols ++ rest)))
    (faithful : ∀ length ∈ declarator.lengths, length.Faithful mode) :
    (declarator.count ≤ 64 → Builds env mode symbols rest type declarator) ∧
    (64 < declarator.count → typeName env mode symbols = .error tooLong) := by
  have taken : ∀ length ∈ declarator.lengths, length.Taken mode := by
    intro length mem _
    have low := (faithful length mem).2.1
    rw [entry_faithful (faithful length mem)]
    omega
  have deep := depth_le declarator
  have run := @typeExpression_run T V env mode rest declarator taken ends ((declarator.symbols ++ rest).length + 1)
    (by rw [List.length_append]; omega)
  have result : typeName env mode symbols = filled (declarator.flat mode) rest >>= fun read =>
      pure (some (applyExpression (.found type) read.1),read.2) := by
    rw [typeName,base,Parsed.ok_bind]
    simp only [run,if_neg active]
  rw [filled_bind,flat_length] at result
  constructor
  · intro few
    rw [if_pos few] at result
    refine ⟨_,result,?_⟩
    rw [applyExpression_denotes]
    exact flat_meaning faithful _
  · intro many
    rw [result,if_neg (by omega)]

def intEnvironment : Environment String Unit where
  identifier _ _ name := .ok (if name = chars "int" then some (.type,()) else none)
  idValue _ _ := .ok none
  qualifiedName _ value _ symbols := .ok (.other,value,symbols)
  typeOf _ := "int"
  realInt _ := 0
  realUns _ := 0

def intName : Token := ⟨.name,some (stringVal 1 (chars "int")),noFlags⟩

/-- A length of less than 128. -/
def shortLength (n : Nat) (positive : 0 < n) (small : n < 128) : Length where
  n := n
  typeClass := .integer
  size := 1
  flags := noFlags
  positive := positive
  small := by omega
  isNumber := .inl rfl
  kept _ := .inl small

def arrayOf (length : Length) : Declarator := .plain 0 [length] (.inr (List.cons_ne_nil _ _))

/-- `int (*)[5]` -/
theorem pointer_to_array : Builds intEnvironment .normal
    (intName :: (Declarator.nested 0 (.plain 1 [] (.inl Nat.one_pos)) [shortLength 5 (by decide) (by decide)]).symbols) [] "int"
    (.nested 0 (.plain 1 [] (.inl Nat.one_pos)) [shortLength 5 (by decide) (by decide)]) :=
  (typeName_declarator (.nested 0 (.plain 1 [] (.inl Nat.one_pos)) [shortLength 5 (by decide) (by decide)]) (by decide) ⟨by decide,by decide,by decide⟩ rfl
    (by
      intro length mem
      simp only [Declarator.lengths,List.append_nil,List.mem_singleton] at mem
      rw [mem]
      exact ⟨rfl,by decide,by decide⟩)).1 (by decide)

/-- An array of one element and, in type mode, any array is a pointer; 65 pointers are too many. -/
theorem arrays_become_pointers :
    ¬Builds intEnvironment .normal (intName :: (arrayOf (shortLength 1 (by decide) (by decide))).symbols) [] "int"
      (arrayOf (shortLength 1 (by decide) (by decide))) ∧
    ¬Builds intEnvironment .type (intName :: (arrayOf (shortLength 5 (by decide) (by decide))).symbols) [] "int"
      (arrayOf (shortLength 5 (by decide) (by decide))) ∧
    ¬Builds intEnvironment .normal (intName :: (Declarator.plain 65 [] (.inl (by decide))).symbols) [] "int" (.plain 65 [] (.inl (by decide))) := by
  refine ⟨?_,?_,?_⟩
  · rintro ⟨made,run,meaning⟩
    cases run
    cases meaning
  · rintro ⟨made,run,meaning⟩
    cases run
    cases meaning
  · rintro ⟨made,run,-⟩
    cases run

end Types

end Tcf.Expressions
