import Tcf.ExpressionLiterals

/-! When an integer literal gets the type that C gives it. -/
namespace Tcf.Expressions

open Json

variable {size : Nat}

section Reading

variable {lit : Literal} {rest digits text : Text} {n : Nat}

theorem takeWhile_run {kind : UInt8 → Bool} (all : ∀ ch ∈ digits, kind ch) (stops : ∀ ch ∈ text.head?, kind ch = false) :
    (digits ++ text).takeWhile kind = digits ∧ (digits ++ text).dropWhile kind = text := by
  rw [List.takeWhile_append_of_pos all,List.dropWhile_append_of_pos all]
  cases text with
  | nil => simp
  | cons ch text =>
    have outside := stops ch rfl
    simp [outside]

theorem digitsValue_mod (base start : Nat) (digits : Text) :
    digitsValue base (start % 2 ^ 64) digits = digits.foldl (fun value ch => value * base + hexValue ch) start % 2 ^ 64 := by
  induction digits generalizing start with
  | nil => rfl
  | cons ch digits ih =>
    have step : (start % 2 ^ 64 * base + hexValue ch) % 2 ^ 64 = (start * base + hexValue ch) % 2 ^ 64 := by
      simp [Nat.add_mod,Nat.mul_mod]
    rw [digitsValue,List.foldl_cons,step]
    exact ih _

theorem digitsValue_literal (small : lit.value < 2 ^ 64) : digitsValue lit.base.number 0 lit.digits = lit.value := by
  have whole := digitsValue_mod lit.base.number 0 lit.digits
  rw [Nat.zero_mod] at whole
  rw [whole]
  exact Nat.mod_eq_of_lt small

theorem readSuffixes_run (flags : Flags) (suffix : ∀ ch ∈ digits, isL ch ∨ isU ch) (stops : ∀ ch ∈ text.head?, isL ch = false ∧ isU ch = false) :
    readSuffixes flags (digits ++ text) = ({ flags with l := flags.l || digits.any isL, u := flags.u || digits.any isU },text) := by
  induction digits generalizing flags with
  | nil =>
    cases text with
    | nil => simp [readSuffixes]
    | cons ch text =>
      obtain ⟨not_l,not_u⟩ := stops ch rfl
      simp [readSuffixes,not_l,not_u]
  | cons ch digits ih =>
    obtain ⟨first,later⟩ := List.forall_mem_cons.mp suffix
    have disjoint : isL ch = true → isU ch = false := by
      simp only [isL,isU,decide_eq_true_eq,decide_eq_false_iff_not]
      rintro (rfl | rfl) <;> decide
    rw [List.cons_append,readSuffixes]
    by_cases l : isL ch = true
    · rw [if_pos l,ih _ later]
      simp [l,disjoint l]
    · have u := first.resolve_left l
      rw [if_neg l,if_pos u,ih _ later]
      simp [l,u]

theorem storedSize_cases (limit : Nat → Nat) (n : Nat) :
    ((storedSize limit n = 1 ∨ storedSize limit n = 2 ∨ storedSize limit n = 4) ∧ n ≤ limit (storedSize limit n)) ∨ storedSize limit n = 8 := by
  unfold storedSize
  by_cases one : n ≤ limit 1
  · simp [one]
  · by_cases two : n ≤ limit 2
    · simp [one,two]
    · by_cases four : n ≤ limit 4
      · simp [one,two,four]
      · simp [one,two,four]

theorem setIntValue_stored {limit : Nat → Nat} (small : n < 2 ^ 64) (fits : ∀ size, limit size < 2 ^ (8 * size)) :
    setIntValue (storedSize limit n) n = .ok (.number (storedSize limit n) n) := by
  rcases storedSize_cases limit n with ⟨size,below⟩ | size
  · have less := fits (storedSize limit n)
    have known : storedSize limit n = 1 ∨ storedSize limit n = 2 ∨ storedSize limit n = 4 ∨ storedSize limit n = 8 := by omega
    rw [setIntValue,if_pos known,Nat.mod_eq_of_lt (by omega)]
  · rw [size,setIntValue,if_pos (by decide),Nat.mod_eq_of_lt small]

theorem maxCardinal_less (size : Nat) : maxCardinal size < 2 ^ (8 * size) := by
  have := Nat.two_pow_pos (8 * size)
  unfold maxCardinal
  omega

theorem maxInteger_less (size : Nat) : maxInteger size < 2 ^ (8 * size) := by
  have := Nat.two_pow_pos (8 * size - 1)
  have := Nat.pow_le_pow_right (show 0 < 2 by decide) (show 8 * size - 1 ≤ 8 * size by omega)
  unfold maxInteger
  omega

theorem toUns_small {typeClass : TypeClass} (fits : typeClass = .cardinal ∨ n < 2 ^ (8 * size - 1) ∨ size = 8) :
    toUns typeClass size n = n := by
  unfold toUns
  split
  · rename_i negative
    obtain ⟨rfl,large⟩ := negative
    rcases fits with fits | fits | rfl
    · cases fits
    · omega
    · simp
  · rfl

/-- What the lexer makes of a literal: its flags and its value. -/
structure Lexed (lit : Literal) (token : Token) : Prop where
  flags : token.flags.l = lit.isLong ∧ token.flags.u = lit.isUnsigned ∧ token.flags.c = false
  based : lit.value ≠ 0 → lit.base ≠ .decimal → token.flags.x = true
  decimal : lit.base = .decimal → token.flags.x = false
  val : ∃ typeClass size, token.val = some ⟨typeClass,.number size lit.value⟩ ∧ toUns typeClass size lit.value = lit.value ∧
    (size = 1 ∨ size = 2 ∨ size = 4 ∨ size = 8)

variable {ch : UInt8}

theorem isHex_name (hex : isHex ch = true) : isNameCharacter ch = true := by
  simp only [isHex,isNameCharacter,decide_eq_true_eq] at hex ⊢
  rcases hex with digit | ⟨above,below⟩ | ⟨above,below⟩
  · exact .inr (.inr (.inl digit))
  · exact .inl ⟨above,UInt8.le_trans below (show byte 'F' ≤ byte 'Z' by decide)⟩
  · exact .inr (.inl ⟨above,UInt8.le_trans below (show byte 'f' ≤ byte 'z' by decide)⟩)

theorem isDigit_hex (digit : isDigit ch = true) : isHex ch = true := by simp [isHex,digit]

theorem isOctal_digit (octal : isOctal ch = true) : isDigit ch = true := by
  simp only [isOctal,isDigit,decide_eq_true_eq] at octal ⊢
  exact ⟨octal.1,UInt8.le_trans octal.2 (show byte '7' ≤ byte '9' by decide)⟩

/-- Characters that a number would go on with. -/
structure Stops (ch : UInt8) : Prop where
  hex : isHex ch = false
  real : ch ≠ byte '.' ∧ ch ≠ byte 'e' ∧ ch ≠ byte 'E' ∧ ch ≠ byte 'f' ∧ ch ≠ byte 'F'
  mark : ch ≠ byte 'x'

theorem Stops.digit (stops : Stops ch) : isDigit ch = false := by
  cases digit : isDigit ch with
  | false => rfl
  | true => exact absurd stops.hex (by simp [isDigit_hex digit])

theorem Stops.octal (stops : Stops ch) : isOctal ch = false := by
  cases octal : isOctal ch with
  | false => rfl
  | true => exact absurd stops.digit (by simp [isOctal_digit octal])

theorem outside_stops (outside : isNameCharacter ch = false) (dot : ch ≠ byte '.') : Stops ch := by
  refine ⟨?_,⟨dot,?_,?_,?_,?_⟩,?_⟩
  · cases hex : isHex ch with
    | false => rfl
    | true => exact absurd outside (by simp [isHex_name hex])
  all_goals
    rintro rfl
    exact absurd outside (by decide)

theorem suffix_stops (suffix : isL ch ∨ isU ch) : Stops ch := by
  simp only [isL,isU,decide_eq_true_eq] at suffix
  rcases suffix with (rfl | rfl) | (rfl | rfl) <;> exact ⟨by decide,by decide,by decide⟩

theorem behind_digits (delimited : Delimited rest) : ∀ ch ∈ (lit.suffix ++ rest).head?, Stops ch := by
  intro ch head
  cases suffix : lit.suffix with
  | nil =>
    rw [suffix,List.nil_append] at head
    obtain ⟨outside,dot⟩ := delimited ch head
    exact outside_stops outside dot
  | cons first others =>
    rw [suffix,List.cons_append,List.head?_cons,Option.mem_some_iff] at head
    subst head
    exact suffix_stops (lit.suffixes first (by rw [suffix]; exact List.mem_cons_self))

theorem behind_suffix (delimited : Delimited rest) : ∀ ch ∈ rest.head?, isL ch = false ∧ isU ch = false := by
  intro ch head
  obtain ⟨outside,-⟩ := delimited ch head
  constructor
  · cases l : isL ch with
    | false => rfl
    | true =>
      simp only [isL,decide_eq_true_eq] at l
      rcases l with rfl | rfl <;> exact absurd outside (by decide)
  · cases u : isU ch with
    | false => rfl
    | true =>
      simp only [isU,decide_eq_true_eq] at u
      rcases u with rfl | rfl <;> exact absurd outside (by decide)

theorem isReal_stops (stops : ∀ ch ∈ text.head?, Stops ch) : isReal text = false := by
  cases text with
  | nil => decide
  | cons ch text =>
    have real := (stops ch rfl).real
    simp [isReal,textCh,real]

theorem suffixes_read (lit : Literal) (flags : Flags) (delimited : Delimited rest) :
    readSuffixes flags (lit.suffix ++ rest) = ({ flags with l := flags.l || lit.isLong, u := flags.u || lit.isUnsigned },rest) :=
  readSuffixes_run flags lit.suffixes (behind_suffix delimited)

theorem nextSy_digit (digit : isDigit ch = true) (fuel : Nat) (text : Text) :
    nextSy fuel (ch :: text) = if ch = byte '0' then parseZero text else parseDecimal ch text := by
  have not_space : isSpace ch = false := by
    cases space : isSpace ch with
    | false => rfl
    | true =>
      simp only [isSpace,decide_eq_true_eq] at space
      rcases space with rfl | rfl | rfl | rfl <;> exact absurd digit (by decide)
  have not_bracket : ch ∉ brackets := fun mem => absurd digit (by
    have none : ∀ ch ∈ brackets, isDigit ch = false := forall_of_all (by decide)
    simp [none ch mem])
  have not_operator : ch ∉ operators := fun mem => absurd digit (by
    have none : ∀ ch ∈ operators, isDigit ch = false := forall_of_all (by decide)
    simp [none ch mem])
  have not_quote : ch ≠ byte '\'' ∧ ch ≠ byte '"' := by
    constructor <;> rintro rfl <;> exact absurd digit (by decide)
  simp only [nextSy,List.dropWhile_cons,not_space,Bool.false_eq_true,if_false,not_bracket,not_operator,not_quote.1,not_quote.2,digit,if_true]

theorem parseDecimal_literal (decimal : lit.base = .decimal) (small : lit.value < 2 ^ 64) (delimited : Delimited rest) (fuel : Nat) :
    ∃ token, nextSy fuel (lit.text ++ rest) = .ok (token,rest) ∧ Lexed lit token := by
  obtain ⟨first,others,digits,zero,all⟩ := lit.decimal decimal
  rw [digits] at all
  obtain ⟨digit,later⟩ := List.forall_mem_cons.mp all
  have stops := @behind_digits lit rest delimited
  obtain ⟨run,after⟩ := takeWhile_run later fun ch head => (stops ch head).digit
  have value : digitsValue 10 (hexValue first) others = lit.value := by
    have whole := digitsValue_literal small
    rw [digits,decimal,digitsValue,List.foldl_cons,Nat.zero_mul,Nat.zero_add] at whole
    have less : hexValue first < 2 ^ 64 := by
      have := first.toNat_lt
      simp only [hexValue,digit,if_true]
      omega
    rw [Nat.mod_eq_of_lt less] at whole
    exact whole
  have text : lit.text ++ rest = first :: (others ++ (lit.suffix ++ rest)) := by simp [Literal.text,decimal,Base.mark,digits]
  rw [text,nextSy_digit digit,if_neg zero,parseDecimal,run,after,value,isReal_stops stops]
  simp only [Bool.false_eq_true,if_false,suffixes_read lit noFlags delimited]
  have fits : ∀ size, (if noFlags.u || lit.isUnsigned then maxCardinal else maxInteger) size < 2 ^ (8 * size) := by
    intro size
    split
    · exact maxCardinal_less size
    · exact maxInteger_less size
  rw [setIntValue_stored small fits]
  refine ⟨_,rfl,⟨rfl,rfl,rfl⟩,fun _ other => absurd decimal other,fun _ => rfl,_,_,rfl,toUns_small ?_,?_⟩
  · by_cases unsigned : lit.isUnsigned = true
    · left
      simp [unsigned]
    · right
      rcases storedSize_cases (if noFlags.u || lit.isUnsigned then maxCardinal else maxInteger) lit.value with ⟨-,below⟩ | eight
      · left
        simp only [unsigned,Bool.or_false,Bool.false_eq_true,if_false,show noFlags.u = false from rfl] at below ⊢
        have := Nat.two_pow_pos (8 * storedSize maxInteger lit.value - 1)
        unfold maxInteger at below this ⊢
        omega
      · exact .inr eight
  · rcases storedSize_cases (if noFlags.u || lit.isUnsigned then maxCardinal else maxInteger) lit.value with ⟨size,-⟩ | eight
    · omega
    · omega

theorem value_nil (empty : lit.digits = []) : lit.value = 0 := by simp [Literal.value,empty]

/-- What is common to octal and hexadecimal literals. -/
theorem lexed_based {x : Bool} (other : lit.base ≠ .decimal) (based : x = true ↔ lit.value ≠ 0 ∨ lit.digits ≠ []) :
    Lexed lit ⟨.val,some ⟨if x then .cardinal else .integer,.number (storedSize maxCardinal lit.value) lit.value⟩,
      { noFlags with x := x, l := noFlags.l || lit.isLong, u := noFlags.u || lit.isUnsigned }⟩ where
  flags := ⟨rfl,rfl,rfl⟩
  based nonzero _ := based.mpr (.inl nonzero)
  decimal decimal := absurd decimal other
  val := by
    refine ⟨_,_,rfl,toUns_small ?_,?_⟩
    · cases known : x with
      | true => simp
      | false =>
        have none : ¬(lit.value ≠ 0 ∨ lit.digits ≠ []) := by rw [← based,known]; decide
        right
        left
        have zero : lit.value = 0 := by omega
        rw [zero]
        exact Nat.two_pow_pos _
    · rcases storedSize_cases maxCardinal lit.value with ⟨size,-⟩ | eight
      · omega
      · omega

theorem parseOctal_literal (octal : lit.base = .octal) (small : lit.value < 2 ^ 64) (delimited : Delimited rest) (fuel : Nat) :
    ∃ token, nextSy fuel (lit.text ++ rest) = .ok (token,rest) ∧ Lexed lit token := by
  have stops := @behind_digits lit rest delimited
  have all := lit.octal octal
  obtain ⟨run,after⟩ := takeWhile_run all fun ch head => (stops ch head).octal
  have value := digitsValue_literal small
  have head : isReal (lit.digits ++ (lit.suffix ++ rest)) = false ∧ textCh (lit.digits ++ (lit.suffix ++ rest)) ≠ byte 'x' := by
    cases digits : lit.digits with
    | nil =>
      refine ⟨isReal_stops stops,?_⟩
      cases more : lit.suffix ++ rest with
      | nil => decide
      | cons ch more => exact (stops ch (by rw [more]; rfl)).mark
    | cons ch digits =>
      have digit := all ch (by rw [digits]; exact List.mem_cons_self)
      have outside : ch ≠ byte '.' ∧ ch ≠ byte 'e' ∧ ch ≠ byte 'E' ∧ ch ≠ byte 'f' ∧ ch ≠ byte 'F' ∧ ch ≠ byte 'x' := by
        refine ⟨?_,?_,?_,?_,?_,?_⟩ <;> rintro rfl <;> exact absurd digit (by decide)
      simp [isReal,textCh,outside]
  have text : lit.text ++ rest = byte '0' :: (lit.digits ++ (lit.suffix ++ rest)) := by simp [Literal.text,octal,Base.mark]
  rw [octal] at value
  rw [text,nextSy_digit (by decide),if_pos rfl,parseZero]
  simp only [head.1,head.2,Bool.false_eq_true,if_false,run,after,false_or]
  simp only [Base.number] at value
  rw [value,setIntValue_stored small maxCardinal_less]
  simp only [Code.ok_bind,suffixes_read lit _ delimited]
  have zero : lit.digits = [] → lit.value = 0 := value_nil
  have based : decide (lit.digits ≠ []) = true ↔ lit.value ≠ 0 ∨ lit.digits ≠ [] := by
    simp only [decide_eq_true_eq]
    tauto
  have lexed := lexed_based (by simp [octal]) based
  simp only [decide_eq_true_eq] at lexed
  exact ⟨_,rfl,lexed⟩

theorem parseHex_literal (hex : lit.base = .hex false) (small : lit.value < 2 ^ 64) (delimited : Delimited rest) (fuel : Nat) :
    ∃ token, nextSy fuel (lit.text ++ rest) = .ok (token,rest) ∧ Lexed lit token := by
  have stops := @behind_digits lit rest delimited
  obtain ⟨nonempty,all⟩ := lit.hex false hex
  obtain ⟨run,after⟩ := takeWhile_run all fun ch head => (stops ch head).hex
  have value := digitsValue_literal small
  have text : lit.text ++ rest = byte '0' :: byte 'x' :: (lit.digits ++ (lit.suffix ++ rest)) := by simp [Literal.text,hex,Base.mark]
  have mark : isReal (byte 'x' :: (lit.digits ++ (lit.suffix ++ rest))) = false := rfl
  rw [hex] at value
  rw [text,nextSy_digit (by decide),if_pos rfl,parseZero]
  simp only [mark,Bool.false_eq_true,if_false,textCh,List.headD_cons,decide_true,if_true,List.tail_cons,run,after,true_or]
  simp only [Base.number] at value
  rw [value,setIntValue_stored small maxCardinal_less]
  simp only [Code.ok_bind,suffixes_read lit _ delimited]
  refine ⟨_,rfl,@lexed_based lit true (by simp [hex]) ?_⟩
  simp [nonempty]

/-- The prefix with a capital letter is not read. -/
theorem parseCapital_literal (hex : lit.base = .hex true) (fuel : Nat) :
    ∃ token, nextSy fuel (lit.text ++ rest) = .ok (token,byte 'X' :: (lit.digits ++ (lit.suffix ++ rest))) := by
  have text : lit.text ++ rest = byte '0' :: byte 'X' :: (lit.digits ++ (lit.suffix ++ rest)) := by simp [Literal.text,hex,Base.mark]
  rw [text,nextSy_digit (by decide),if_pos rfl]
  exact ⟨_,rfl⟩

theorem literal_lexed (lower : lit.base ≠ .hex true) (small : lit.value < 2 ^ 64) (delimited : Delimited rest) (fuel : Nat) :
    ∃ token, nextSy fuel (lit.text ++ rest) = .ok (token,rest) ∧ Lexed lit token := by
  cases base : lit.base with
  | decimal => exact parseDecimal_literal base small delimited fuel
  | octal => exact parseOctal_literal base small delimited fuel
  | hex capital =>
    cases capital with
    | false => exact parseHex_literal base small delimited fuel
    | true => exact absurd base lower

end Reading

variable {token : Token}

section Typing

variable {target : Target} {lit : Literal} {rest : Text} {n : Nat} {v : Typing} {t : StdType} {ts : List StdType}

/-- The types are tried one after another until one is taken. -/
def tryAll (std : StdTypes) (n : Nat) : List StdType → Typing → Code Typing
  | [], v => .ok v
  | t :: ts, v => do
    let v ← tryType std t t.typeClass n v
    if v.type = none then tryAll std n ts v else pure v

theorem getStdType_class (target : Target) (t : StdType) : getStdType target.std t (some t.typeClass) = some (target.size t,t.typeClass) := by
  obtain ⟨low,-⟩ := target.sized t
  have nonzero : target.size t ≠ 0 := by omega
  simp [getStdType,Target.std,Option.filter,nonzero]

theorem tryType_wide (wide : target.Wide t) : tryType target.std t t.typeClass n v = .error .fault := by
  obtain ⟨unsigned,size⟩ := wide
  rw [tryType,getStdType_class]
  simp [StdType.typeClass,unsigned,size,shiftedOne]

theorem tryType_narrow (narrow : ¬target.Wide t) : tryType target.std t t.typeClass n v =
    .ok (if target.fits n t then ⟨some t,t.typeClass,target.size t⟩ else { v with size := target.size t }) := by
  obtain ⟨low,high⟩ := target.sized t
  rw [tryType,getStdType_class]
  cases signed : t.isSigned with
  | true =>
    have shift : target.size t * 8 - 1 < 64 := by omega
    have positive := Nat.two_pow_pos (target.size t * 8 - 1)
    have same : (n ≤ 2 ^ (target.size t * 8 - 1) - 1) ↔ n < 2 ^ (8 * target.size t - 1) := by
      rw [Nat.mul_comm 8]
      omega
    simp [StdType.typeClass,signed,shiftedOne,shift,Target.fits,same]
  | false =>
    have small : target.size t ≠ 8 := fun eight => narrow ⟨signed,eight⟩
    have shift : target.size t * 8 < 64 := by omega
    have positive := Nat.two_pow_pos (target.size t * 8)
    have same : (n ≤ 2 ^ (target.size t * 8) - 1) ↔ n < 2 ^ (8 * target.size t) := by
      rw [Nat.mul_comm 8]
      omega
    simp [StdType.typeClass,signed,shiftedOne,shift,Target.fits,same]

/-- The first type that fits is taken, unless an unsigned one of 64 bits is met before it. -/
theorem tryAll_cases (target : Target) (n : Nat) (ts : List StdType) (v : Typing) (untyped : v.type = none) :
    ((∃ t ∈ target.tried n ts, target.Wide t) ∧ tryAll target.std n ts v = .error .fault) ∨
    ((∀ t ∈ target.tried n ts, ¬target.Wide t) ∧ ∃ typing, tryAll target.std n ts v = .ok typing ∧ typing.type = ts.find? (target.fits n) ∧
      ∀ t, typing.type = some t → typing.typeClass = t.typeClass ∧ typing.size = target.size t) := by
  induction ts generalizing v with
  | nil =>
    right
    refine ⟨by simp [Target.tried],v,rfl,untyped,fun t some_ => ?_⟩
    rw [untyped] at some_
    cases some_
  | cons t ts ih =>
    by_cases wide : target.Wide t
    · left
      refine ⟨⟨t,?_,wide⟩,by simp [tryAll,tryType_wide wide]⟩
      unfold Target.tried
      split <;> simp
    · by_cases fits : target.fits n t = true
      · right
        refine ⟨?_,⟨some t,t.typeClass,target.size t⟩,?_,by simp [fits],?_⟩
        · simpa [Target.tried,fits] using wide
        · simp [tryAll,tryType_narrow wide,fits]
        · intro u same
          cases same
          exact ⟨rfl,rfl⟩
      · have later := ih { v with size := target.size t } untyped
        have run : tryAll target.std n (t :: ts) v = tryAll target.std n ts { v with size := target.size t } := by
          simp [tryAll,tryType_narrow wide,fits,untyped]
        simpa [Target.tried,fits,wide,run] using later

/-- The types left after one that did not fit. -/
def tryLater (std : StdTypes) (n : Nat) (ts : List StdType) (v : Typing) : Code Typing := if v.type = none then tryAll std n ts v else pure v

theorem tryLater_nil (std : StdTypes) (n : Nat) : tryLater std n [] = pure := by
  funext v
  simp [tryLater,tryAll,pure,Except.pure]

theorem tryLater_cons (std : StdTypes) (n : Nat) (t : StdType) (ts : List StdType) :
    tryLater std n (t :: ts) = fun v => (if v.type = none then tryType std t t.typeClass n v else pure v) >>= tryLater std n ts := by
  funext v
  rw [tryLater,tryAll]
  by_cases untyped : v.type = none
  · simp only [untyped,if_true]
    rfl
  · rw [if_neg untyped,if_neg untyped,pure_bind,tryLater,if_neg untyped]

theorem choice_bind {α β : Type} (c : Prop) [Decidable c] (yes no : Code α) (next : α → Code β) :
    ((if c then yes else no) >>= next) = if c then yes >>= next else no >>= next := by split <;> rfl

theorem zero_fits (target : Target) : target.fits 0 .int = true := by simp [Target.fits,StdType.isSigned]

/-- What is tried for the flags is the list for the literal. -/
theorem literalTyping_candidates (target : Target) (lexed : Lexed lit token) (v : Typing) (untyped : v.type = none) :
    literalTyping target.std token.flags lit.value v = tryAll target.std lit.value lit.candidates v := by
  obtain ⟨l,u,-⟩ := lexed.flags
  have start : tryAll target.std lit.value lit.candidates v = tryLater target.std lit.value lit.candidates v := by simp [tryLater,untyped]
  rw [start,literalTyping,l,u]
  cases long : lit.isLong with
  | true =>
    cases unsigned : lit.isUnsigned with
    | true => simp [Literal.candidates,long,unsigned,tryLater_cons,tryLater_nil,untyped,StdType.typeClass,StdType.isSigned]
    | false => simp [Literal.candidates,long,unsigned,tryLater_cons,tryLater_nil,untyped,StdType.typeClass,StdType.isSigned]
  | false =>
    cases unsigned : lit.isUnsigned with
    | true => simp [Literal.candidates,long,unsigned,tryLater_cons,tryLater_nil,untyped,StdType.typeClass,StdType.isSigned]
    | false =>
      by_cases decimal : lit.base = .decimal
      · have x := lexed.decimal decimal
        simp [Literal.candidates,long,unsigned,decimal,x,choice_bind,tryLater_cons,tryLater_nil,untyped,StdType.typeClass,StdType.isSigned]
      · by_cases zero : lit.value = 0
        · -- An `int` holds 0, so that the flag for the base does not matter.
          have narrow : ¬target.Wide .int := fun wide => by cases wide.1
          have taken := @tryType_narrow target 0 v .int narrow
          rw [zero_fits,if_pos rfl] at taken
          simp only [StdType.typeClass,StdType.isSigned,if_true] at taken
          simp [Literal.candidates,long,unsigned,decimal,zero,tryLater_cons,tryLater_nil,untyped,StdType.typeClass,StdType.isSigned,taken]
        · have x := lexed.based zero decimal
          simp [Literal.candidates,long,unsigned,decimal,x,choice_bind,tryLater_cons,tryLater_nil,untyped,StdType.typeClass,StdType.isSigned]

/-- A size that `set_int_value` has a case for. -/
def Storable (size : Nat) : Prop := size = 1 ∨ size = 2 ∨ size = 4 ∨ size = 8

theorem setIntValue_storable (storable : Storable size) (small : n < 2 ^ (8 * size)) : setIntValue size n = .ok (.number size n) := by
  unfold Storable at storable
  rw [setIntValue,if_pos storable,Nat.mod_eq_of_lt small]

theorem fits_less (fits : target.fits n t = true) : n < 2 ^ (8 * target.size t) := by
  unfold Target.fits at fits
  split at fits
  · have := of_decide_eq_true fits
    have := Nat.pow_le_pow_right (show 0 < 2 by decide) (show 8 * target.size t - 1 ≤ 8 * target.size t by omega)
    omega
  · exact of_decide_eq_true fits

/-- The typing of a number that was read, when no shift fails. -/
theorem primaryNumber_typed {typeClass : TypeClass} {typing : Typing} (lexed : Lexed lit token)
    (kept : toUns typeClass size lit.value = lit.value) (tries : tryAll target.std lit.value lit.candidates ⟨none,typeClass,0⟩ = .ok typing) :
    primaryNumber target.std token.flags typeClass size lit.value =
      (if typing.type ≠ none ∧ typing.size ≠ size then setIntValue typing.size lit.value else pure (.number size lit.value)) >>= fun value =>
        pure ⟨typing.type,typing.typeClass,value⟩ := by
  have typed := literalTyping_candidates target lexed ⟨none,typeClass,0⟩ rfl
  rw [tries] at typed
  simp only [primaryNumber,kept,lexed.flags.2.2,Bool.false_eq_true,if_false,typed,Code.ok_bind,choice_bind]

theorem primaryNumber_wide {typeClass : TypeClass} {stop : Stop} (lexed : Lexed lit token)
    (kept : toUns typeClass size lit.value = lit.value) (tries : tryAll target.std lit.value lit.candidates ⟨none,typeClass,0⟩ = .error stop) :
    primaryNumber target.std token.flags typeClass size lit.value = .error stop := by
  have typed := literalTyping_candidates target lexed ⟨none,typeClass,0⟩ rfl
  rw [tries] at typed
  simp only [primaryNumber,kept,lexed.flags.2.2,Bool.false_eq_true,if_false,typed,Code.error_bind]

end Typing

section Exact

variable {target : Target} {lit : Literal} {rest : Text} {fuel : Nat}

theorem capital_fails (hex : lit.base = .hex true) : ¬target.Follows lit fuel rest := by
  rintro ⟨typed,run,-⟩
  obtain ⟨token,read⟩ := @parseCapital_literal lit rest hex fuel
  have longer : byte 'X' :: (lit.digits ++ (lit.suffix ++ rest)) ≠ rest := by
    intro same
    have := congrArg List.length same
    simp only [List.length_cons,List.length_append] at this
    omega
  rw [primaryExpression,read,Code.ok_bind] at run
  dsimp only at run
  split at run
  · obtain ⟨found,-,after⟩ := Code.bind_ok_iff.mp run
    exact longer (congrArg Prod.snd (Except.ok.inj after))
  · cases run

/-- The type that the list gives, once the number was read. -/
theorem follows_iff_typed {typeClass : TypeClass} (read : nextSy fuel (lit.text ++ rest) = .ok (token,rest))
    (val : token.val = some ⟨typeClass,.number size lit.value⟩) :
    target.Follows lit fuel rest ↔ ∃ typed, primaryNumber target.std token.flags typeClass size lit.value = .ok typed ∧
      typed.type = lit.candidates.find? (target.fits lit.value) ∧
      ∃ size, typed.value = .number size lit.value ∧ ∀ t, typed.type = some t → size = target.size t ∧ typed.typeClass = t.typeClass := by
  have run : primaryExpression target.std fuel (lit.text ++ rest) =
      primaryNumber target.std token.flags typeClass size lit.value >>= fun typed => pure (typed,rest) := by
    rw [primaryExpression,read,Code.ok_bind]
    simp only [val]
  unfold Target.Follows
  rw [run]
  constructor
  · rintro ⟨typed,ok,correct⟩
    obtain ⟨found,number,same⟩ := Code.bind_ok_iff.mp ok
    cases same
    exact ⟨typed,number,correct⟩
  · rintro ⟨typed,number,correct⟩
    exact ⟨typed,by rw [number]; rfl,correct⟩

/-- A literal has the type of C just when its prefix is not 0X, no unsigned type of 64 bits is tried for it, and its type has a size of 1, 2, 4 or 8 bytes. -/
theorem literal_follows_iff (target : Target) (lit : Literal) (small : lit.value < 2 ^ 64) (rest : Text) (delimited : Delimited rest) (fuel : Nat) :
    target.Follows lit fuel rest ↔ lit.base ≠ .hex true ∧ (∀ t ∈ target.tried lit.value lit.candidates, ¬target.Wide t) ∧
      ∀ t, lit.candidates.find? (target.fits lit.value) = some t → Storable (target.size t) := by
  by_cases hex : lit.base = .hex true
  · simp [hex,capital_fails hex]
  · obtain ⟨token,read,lexed⟩ := literal_lexed hex small delimited fuel
    obtain ⟨typeClass,size,val,kept,known⟩ := lexed.val
    rw [follows_iff_typed read val]
    rcases tryAll_cases target lit.value lit.candidates ⟨none,typeClass,0⟩ rfl with ⟨⟨t,tried,wide⟩,fault⟩ | ⟨narrow,typing,tries,first,typed⟩
    · have stops := primaryNumber_wide lexed kept fault
      constructor
      · rintro ⟨typed,run,-⟩
        rw [stops] at run
        cases run
      · rintro ⟨-,narrow,-⟩
        exact absurd wide (narrow t tried)
    · have run := primaryNumber_typed lexed kept tries
      simp only [run,hex,ne_eq,not_false_eq_true,true_and,← first]
      cases type : typing.type with
      | none =>
        simp only [not_true_eq_false,false_and,if_false,pure_bind]
        exact ⟨fun _ => ⟨narrow,fun t none => by cases none⟩,fun _ => ⟨_,rfl,rfl,size,rfl,fun t none => by cases none⟩⟩
      | some t =>
        obtain ⟨typeClass_eq,size_eq⟩ := typed t type
        have fits : target.fits lit.value t = true := List.find?_some (first.symm.trans type)
        simp only [reduceCtorEq,not_false_eq_true,true_and,Option.some.injEq,forall_eq']
        constructor
        · rintro ⟨typed,ok,-⟩
          refine ⟨narrow,?_⟩
          obtain ⟨value,stored,-⟩ := Code.bind_ok_iff.mp ok
          split at stored
          · rw [setIntValue,size_eq] at stored
            split at stored
            · assumption
            · cases stored
          · rename_i same
            rw [← size_eq,not_not.mp same]
            exact known
        · rintro ⟨-,storable⟩
          have stored : (if ¬typing.size = size then setIntValue typing.size lit.value else pure (.number size lit.value)) =
              .ok (.number (target.size t) lit.value) := by
            split
            · rw [size_eq]
              exact setIntValue_storable storable (fits_less fits)
            · rename_i same
              rw [← size_eq,not_not.mp same]
              rfl
          rw [stored]
          refine ⟨_,rfl,rfl,_,rfl,fun u same => ?_⟩
          cases same
          exact ⟨rfl,typeClass_eq⟩

def lp64Size : StdType → Nat
  | .char => 1
  | .longInt | .longUnsignedInt => 8
  | _ => 4

def lp64 : Target where
  size := lp64Size
  sized t := by cases t <;> decide

def one : Literal where
  base := .decimal
  digits := literal "1"
  suffix := []
  decimal _ := ⟨byte '1',[],rfl,by decide,forall_of_all (by decide)⟩
  octal decimal := by cases decimal
  hex _ decimal := by cases decimal
  suffixes := by simp

def oneUnsignedLong : Literal := { one with suffix := literal "ul", suffixes := forall_of_all (by decide) }

theorem one_is_int : lp64.Follows one 0 [] := by
  refine (literal_follows_iff lp64 one (by decide) [] (fun ch none => by cases none) 0).mpr ⟨by decide,?_,?_⟩
  · rintro t tried ⟨unsigned,-⟩
    rw [show lp64.tried one.value one.candidates = [.int] by decide,List.mem_singleton] at tried
    rw [tried] at unsigned
    cases unsigned
  · intro t first
    rw [show one.candidates.find? (lp64.fits one.value) = some .int by decide] at first
    cases first
    exact .inr (.inr (.inl rfl))

/-- `1ul` needs the greatest number of 64 bits. -/
theorem unsigned_long_shifts_too_far : ¬lp64.Follows oneUnsignedLong 0 [] := by
  rintro ⟨typed,run,-⟩
  rw [show primaryExpression lp64.std 0 (oneUnsignedLong.text ++ []) = .error .fault from rfl] at run
  cases run

end Exact

end Tcf.Expressions
