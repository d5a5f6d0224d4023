import Tcf.ExpressionTokensRead

/-! When the lexer of expressions follows its grammar. -/
namespace Tcf.Expressions

open Json

section Starts

variable {text more others tail w rest : Text} {token : Token} {ch : UInt8}

/-- What a lexeme can be, by its first character. -/
theorem lexeme_cases (lexeme : Lexeme (ch :: others) token) :
    (∃ entry ∈ symbols, entry.1 = ch :: others) ∨
    (∃ l v c, CharText v c ∧ ch :: others = wide l ++ byte '\'' :: (v ++ [byte '\''])) ∨
    (∃ l v cs, Quoted v cs ∧ ch :: others = wide l ++ byte '"' :: (v ++ [byte '"'])) ∨
    (ch = byte '$' ∧ ∃ v cs, Quoted v cs ∧ others = byte '"' :: (v ++ [byte '"'])) ∨
    (ch = byte '$' ∧ ∃ v, byte '}' ∉ v ∧ others = byte '{' :: (v ++ [byte '}'])) ∨
    (isDigit ch = false ∧ isNameCharacter ch = true ∧ ∀ x ∈ others, isNameCharacter x) ∨
    isDigit ch = true := by
  generalize same : ch :: others = w at lexeme
  cases lexeme with
  | symbol entry listed => exact .inl ⟨entry,listed,rfl⟩
  | char l v c one => exact .inr (.inl ⟨l,v,c,one,rfl⟩)
  | string l v cs quoted => exact .inr (.inr (.inl ⟨l,v,cs,quoted,rfl⟩))
  | quotedName v cs quoted =>
    cases same
    exact .inr (.inr (.inr (.inl ⟨rfl,v,cs,quoted,rfl⟩)))
  | id v inside =>
    cases same
    exact .inr (.inr (.inr (.inr (.inl ⟨rfl,v,inside,rfl⟩))))
  | name _ nonempty start all =>
    subst same
    obtain ⟨first,later⟩ := List.forall_mem_cons.mp all
    exact .inr (.inr (.inr (.inr (.inr (.inl ⟨start ch rfl,first,later⟩)))))
  | integer _ n number =>
    cases number with
    | decimal first digits suffix start =>
      cases same
      exact .inr (.inr (.inr (.inr (.inr (.inr start.1)))))
    | octal =>
      cases same
      exact .inr (.inr (.inr (.inr (.inr (.inr (by decide))))))
    | hex =>
      cases same
      exact .inr (.inr (.inr (.inr (.inr (.inr (by decide))))))
  | real _ number =>
    cases number with
    | mk first digits fraction exponent suffix start =>
      cases same
      exact .inr (.inr (.inr (.inr (.inr (.inr start)))))

/-- A character that begins neither a name nor a number nor a literal. -/
structure Plain (ch : UInt8) : Prop where
  digit : isDigit ch = false
  name : isNameCharacter ch = false
  quotes : ch ≠ byte '\'' ∧ ch ≠ byte '"'

theorem wide_head {l : Bool} {quote : UInt8} (same : ch :: others = wide l ++ quote :: rest) :
    (l = false ∧ ch = quote ∧ others = rest) ∨ (l = true ∧ ch = byte 'L' ∧ others = quote :: rest) := by
  cases l with
  | false =>
    cases same
    exact .inl ⟨rfl,rfl,rfl⟩
  | true =>
    cases same
    exact .inr ⟨rfl,rfl,rfl⟩

/-- With such a character only brackets and operators begin. -/
theorem lexeme_plain (plain : Plain ch) (lexeme : Lexeme (ch :: others) token) : ∃ entry ∈ symbols, entry.1 = ch :: others := by
  have not_l : ch ≠ byte 'L' := by
    rintro rfl
    exact absurd plain.name (by decide)
  have not_dollar : ch ≠ byte '$' := by
    rintro rfl
    exact absurd plain.name (by decide)
  rcases lexeme_cases lexeme with symbol | ⟨l,v,c,-,same⟩ | ⟨l,v,cs,-,same⟩ | ⟨dollar,-⟩ | ⟨dollar,-⟩ | ⟨-,name,-⟩ | digit
  · exact symbol
  · rcases wide_head same with ⟨-,quote,-⟩ | ⟨-,letter,-⟩
    · exact absurd quote plain.quotes.1
    · exact absurd letter not_l
  · rcases wide_head same with ⟨-,quote,-⟩ | ⟨-,letter,-⟩
    · exact absurd quote plain.quotes.2
    · exact absurd letter not_l
  · exact absurd dollar not_dollar
  · exact absurd dollar not_dollar
  · exact absurd name (by simp [plain.name])
  · exact absurd digit (by simp [plain.digit])

theorem symbols_head : ∀ entry ∈ symbols, textCh entry.1 ∈ brackets ∨ textCh entry.1 ∈ operators := by decide

theorem brackets_plain : ∀ ch ∈ brackets, isDigit ch = false ∧ isNameCharacter ch = false ∧ ch ≠ byte '\'' ∧ ch ≠ byte '"' :=
  forall_of_all (by decide)

theorem operators_plain : ∀ ch ∈ operators, isDigit ch = false ∧ isNameCharacter ch = false ∧ ch ≠ byte '\'' ∧ ch ≠ byte '"' :=
  forall_of_all (by decide)

theorem brackets_symbols : ∀ ch ∈ brackets, ([ch],Sy.char ch) ∈ symbols ∧ ∀ entry ∈ symbols, entry.1.head? = some ch → entry.1 = [ch] :=
  forall_of_all (by decide)

theorem settle_bracket (bracket : ch ∈ brackets) (more : Text) : Settles (ch :: more) (.ok (⟨.char ch,none,noFlags⟩,more)) := by
  obtain ⟨listed,only⟩ := brackets_symbols ch bracket
  obtain ⟨digit,name,quotes⟩ := brackets_plain ch bracket
  refine .inr ⟨_,_,rfl,longest_of (w := [ch]) rfl (.symbol _ listed) fun other token tail lexeme same => ?_⟩
  obtain ⟨others,rfl,rest_same⟩ := lexeme_head lexeme same
  obtain ⟨entry,member,entry_same⟩ := lexeme_plain ⟨digit,name,quotes⟩ lexeme
  have one := only entry member (by rw [entry_same]; rfl)
  rw [one] at entry_same
  cases entry_same
  rw [rest_same]
  exact Nat.le_refl _

end Starts

section Operators

variable {more : Text} {ch : UInt8}

theorem operators_symbols : ∀ ch ∈ operators, ([ch],Sy.char ch) ∈ symbols ∧
    (∀ alternative ∈ alternatives ch, (ch :: literal alternative.1,alternative.2) ∈ symbols ∨ (ch ∈ [byte '/',byte '%'] ∧ literal alternative.1 = [byte '|'])) ∧
    ∀ entry ∈ symbols, entry.1.head? = some ch →
      entry.1 = [ch] ∨ (∃ alternative ∈ alternatives ch, ch :: literal alternative.1 = entry.1) ∨ (ch ∈ [byte '/',byte '%'] ∧ entry.1 = [ch,byte '=']) :=
  forall_of_all (by decide)

/-- Of two alternatives that can both be there, the longer one is tried first. -/
theorem alternatives_order : ∀ ch ∈ operators, (alternatives ch).Pairwise fun first second => ¬literal first.1 <+: literal second.1 :=
  forall_of_all (by decide)

/-- The alternative that is taken is the longest one there is. -/
theorem operator_longest (listed : ch ∈ operators) {alternative : String × Sy} (member : alternative ∈ alternatives ch)
    (there : literal alternative.1 <+: more) : (operator ch more).2.length + (literal alternative.1).length ≤ more.length := by
  rw [operator]
  cases found : (alternatives ch).find? fun alternative => literal alternative.1 <+: more with
  | none =>
    have missed := List.find?_eq_none.mp found alternative member
    exact absurd there (by simpa using missed)
  | some first =>
    obtain ⟨first_there,before,behind,split,earlier⟩ := List.find?_eq_some_iff_append.mp found
    have first_prefix : literal first.1 <+: more := by simpa using first_there
    have longer : (literal alternative.1).length ≤ (literal first.1).length := by
      have order := alternatives_order ch listed
      rw [split] at member order
      rcases List.mem_append.mp member with early | late
      · have missed := earlier alternative early
        exact absurd there (by simpa using missed)
      · rcases List.mem_cons.mp late with rfl | late
        · exact Nat.le_refl _
        · have apart := (List.pairwise_cons.mp (List.pairwise_append.mp order).2.1).1 alternative late
          rcases List.prefix_or_prefix_of_prefix there first_prefix with shorter | longer
          · exact shorter.length_le
          · exact absurd longer apart
    have inside := first_prefix.length_le
    simp only [List.length_drop]
    omega

/-- The symbol that is read, and what is left. -/
theorem operator_read (listed : ch ∈ operators) (free : ch ∈ [byte '/',byte '%'] → ¬[byte '|'] <+: more) :
    ∃ w, ch :: more = w ++ (operator ch more).2 ∧ (w,(operator ch more).1) ∈ symbols := by
  obtain ⟨single,double,-⟩ := operators_symbols ch listed
  rw [operator]
  cases found : (alternatives ch).find? fun alternative => literal alternative.1 <+: more with
  | none => exact ⟨[ch],rfl,single⟩
  | some first =>
    have member := List.mem_of_find?_eq_some found
    have there : literal first.1 <+: more := by simpa using List.find?_some found
    refine ⟨ch :: literal first.1,?_,?_⟩
    · obtain ⟨rest,same⟩ := there
      simp [← same]
    · rcases double first member with symbol | ⟨slash,bar⟩
      · exact symbol
      · rw [bar] at there
        exact absurd there (free slash)

theorem settle_operator (listed : ch ∈ operators) (free : ch ∈ [byte '/',byte '%'] → ∀ next ∈ [byte '=',byte '|'], ¬[next] <+: more) :
    Settles (ch :: more) (.ok (⟨(operator ch more).1,none,noFlags⟩,(operator ch more).2)) := by
  obtain ⟨w,same,symbol⟩ := operator_read listed fun slash => free slash _ (by simp)
  have shorter : (operator ch more).2.length ≤ more.length := by
    have nonempty := lexeme_nonempty (Lexeme.symbol _ symbol)
    have lengths := congrArg List.length same
    have positive : 0 < w.length := List.length_pos_iff.mpr nonempty
    rw [List.length_append,List.length_cons] at lengths
    omega
  refine .inr ⟨_,_,rfl,longest_of same (.symbol _ symbol) fun other token tail lexeme other_same => ?_⟩
  obtain ⟨others,rfl,rest_same⟩ := lexeme_head lexeme other_same
  obtain ⟨digit,name,quotes⟩ := operators_plain ch listed
  obtain ⟨entry,member,entry_same⟩ := lexeme_plain ⟨digit,name,quotes⟩ lexeme
  obtain ⟨-,-,only⟩ := operators_symbols ch listed
  rcases only entry member (by rw [entry_same]; rfl) with one | ⟨alternative,alternative_member,same_text⟩ | ⟨slash,assigns⟩
  · rw [entry_same] at one
    cases one
    rw [List.nil_append] at rest_same
    rwa [← rest_same]
  · rw [entry_same] at same_text
    cases same_text
    have there : literal alternative.1 <+: more := ⟨tail,rest_same.symm⟩
    have longest := operator_longest listed alternative_member there
    have lengths := congrArg List.length rest_same
    rw [List.length_append] at lengths
    omega
  · rw [entry_same] at assigns
    cases assigns
    exact absurd ⟨tail,rest_same.symm⟩ (free slash (byte '=') (by simp))

end Operators

section Literals

variable {more v w rest tail : Text} {c d : Nat} {cs ds : List Nat} {ch : UInt8} {fuel : Nat}

theorem charText_unique (one : CharText v c) (other : CharText w d) {quote : UInt8} (same : v ++ quote :: tail = w ++ quote :: rest) :
    c = d ∧ tail = rest := by
  have first := nextCharVal_text one (quote :: tail)
  have second := nextCharVal_text other (quote :: rest)
  rw [same,second] at first
  cases first
  exact ⟨rfl,rfl⟩

theorem quoted_unique (one : Quoted v cs) (other : Quoted w ds) (same : v ++ byte '"' :: tail = w ++ byte '"' :: rest) : cs = ds ∧ tail = rest := by
  have first := countChars_quoted one tail (show v.length < v.length + w.length + 1 by omega)
  have second := countChars_quoted other rest (show w.length < v.length + w.length + 1 by omega)
  have read := readChars_quoted one (byte '"' :: tail)
  have again := readChars_quoted other (byte '"' :: rest)
  rw [same,second] at first
  injection first with first
  injection first with lengths rests
  injection rests with _ rests
  rw [same,← lengths,again] at read
  injection read with read
  injection read with chars _
  exact ⟨chars.symm,rests.symm⟩

theorem charText_less (one : CharText w c) : c < 4096 := by
  cases one with
  | plain ch =>
    have := ch.toNat_lt
    omega
  | hex a b c digits =>
    have := hexValue_less digits.1
    have := hexValue_less digits.2.1
    have := hexValue_less digits.2.2
    omega
  | octal a b c first digits =>
    have := hexValue_octal (first_octal first)
    have := hexValue_octal digits.1
    have := hexValue_octal digits.2
    omega
  | escape ch =>
    have := ch.toNat_lt
    unfold escaped
    repeat' split
    all_goals omega

theorem quoted_less (quoted : Quoted w cs) : ∀ c ∈ cs, c < 4096 := by
  induction quoted with
  | nil => simp
  | cons head inside tail ih => exact List.forall_mem_cons.mpr ⟨charText_less head,ih⟩

/-- Characters that fit are stored as they are. -/
theorem stringVal_chars {charSize : Nat} (fits : ∀ c ∈ cs, c < 2 ^ (8 * charSize)) : stringVal charSize cs = ⟨.array,.chars charSize cs⟩ := by
  have same : cs.map (· % 2 ^ (8 * charSize)) = cs := by
    refine (List.map_congr_left fun c mem => ?_).trans (List.map_id cs)
    exact Nat.mod_eq_of_lt (fits c mem)
  rw [stringVal,same]

/-- What `parse_char_value` does behind the character. -/
theorem parseCharValue_behind {l : Bool} (read : nextCharVal more = .ok (c,rest)) (less : c < 4096) : ∃ typeClass size, parseCharValue l more =
    if textCh rest = byte '\'' then .ok (⟨.val,some ⟨typeClass,.number size c⟩,{ noFlags with l := l, c := true }⟩,rest.tail) else .error .exception := by
  have stored : ∃ size, setIntValue (if l then if c ≤ 0xffff then 2 else 4 else if c ≤ 0x7f then 1 else 2) c = .ok (.number size c) := by
    cases l with
    | true => exact ⟨2,by rw [if_pos rfl,if_pos (by omega)]; exact setIntValue_storable (.inr (.inl rfl)) (by omega)⟩
    | false =>
      by_cases small : c ≤ 0x7f
      · exact ⟨1,by rw [if_neg (by decide),if_pos small]; exact setIntValue_storable (.inl rfl) (by omega)⟩
      · exact ⟨2,by rw [if_neg (by decide),if_neg small]; exact setIntValue_storable (.inr (.inl rfl)) (by omega)⟩
  obtain ⟨size,stored⟩ := stored
  refine ⟨if l then .cardinal else .integer,size,?_⟩
  simp only [parseCharValue,read,Code.ok_bind,stored,Code.pure_eq]

/-- A character in quotes is read, or there is an exception and no character in quotes. -/
theorem parseCharValue_cases (l : Bool) (more : Text) :
    (∃ w c rest typeClass size, more = w ++ byte '\'' :: rest ∧ CharText w c ∧
      parseCharValue l more = .ok (⟨.val,some ⟨typeClass,.number size c⟩,{ noFlags with l := l, c := true }⟩,rest)) ∨
    (parseCharValue l more = .error .exception ∧ ∀ v c tail, CharText v c → more ≠ v ++ byte '\'' :: tail) := by
  -- What is read decides what could stand before the quote.
  have reads : ∀ v c tail, CharText v c → more = v ++ byte '\'' :: tail → nextCharVal more = .ok (c,byte '\'' :: tail) := by
    intro v c tail one same
    rw [same]
    exact nextCharVal_text one _
  rcases nextCharVal_cases more with ⟨w,c,rest,same,one⟩ | ends | stop
  · have read := nextCharVal_text one rest
    rw [← same] at read
    obtain ⟨typeClass,size,behind⟩ := parseCharValue_behind (l := l) read (charText_less one)
    by_cases closed : textCh rest = byte '\''
    · left
      cases rest with
      | nil => exact absurd closed (by decide)
      | cons quote rest =>
        rw [textCh_cons] at closed
        subst closed
        exact ⟨w,c,rest,typeClass,size,same,one,behind⟩
    · right
      refine ⟨by rw [behind,if_neg closed],fun v d tail other other_same => ?_⟩
      have again := reads v d tail other other_same
      rw [read] at again
      cases again
      exact closed rfl
  · have read : nextCharVal more = .ok (0,[]) := by
      rw [ends]
      rfl
    obtain ⟨typeClass,size,behind⟩ := parseCharValue_behind (l := l) read (by decide)
    right
    refine ⟨by rw [behind,if_neg (by decide)],fun v d tail other other_same => ?_⟩
    have again := reads v d tail other other_same
    rw [read] at again
    cases again
  · right
    refine ⟨by rw [parseCharValue,stop,Code.error_bind],fun v d tail other other_same => ?_⟩
    have again := reads v d tail other other_same
    rw [stop] at again
    cases again

/-- The first pass counts a string up to its quote, or there is an exception and no string. -/
theorem countChars_decides (more : Text) (enough : more.length < fuel) :
    (∃ w cs rest, more = w ++ byte '"' :: rest ∧ Quoted w cs ∧ countChars fuel more = .ok (cs.length,byte '"' :: rest)) ∨
    (countChars fuel more = .error .exception ∧ ∀ v cs tail, Quoted v cs → more ≠ v ++ byte '"' :: tail) := by
  rcases countChars_cases more enough with ⟨w,cs,rest,rfl,quoted⟩ | stop
  · have inside : w.length < fuel := by
      rw [List.length_append] at enough
      omega
    exact .inl ⟨w,cs,rest,rfl,quoted,countChars_quoted quoted rest inside⟩
  · refine .inr ⟨stop,?_⟩
    rintro v cs tail quoted rfl
    have inside : v.length < fuel := by
      rw [List.length_append] at enough
      omega
    rw [countChars_quoted quoted tail inside] at stop
    cases stop

theorem setStringTextVal_quoted {charSize : Nat} (quoted : Quoted w cs) (rest : Text) :
    setStringTextVal (w ++ byte '"' :: rest) cs.length true charSize = .ok (stringVal charSize cs,byte '"' :: rest) := by
  simp only [setStringTextVal,if_true,readChars_quoted quoted,Code.ok_bind,Code.pure_eq]

end Literals

section IDs

variable {more w rest : Text} {fuel : Nat}

theorem countId_text (inside : byte '}' ∉ w) (rest : Text) (enough : w.length < fuel) : countId fuel (w ++ byte '}' :: rest) = .ok (w.length,byte '}' :: rest) := by
  induction w generalizing fuel with
  | nil =>
    cases fuel with
    | zero => simp at enough
    | succ fuel => simp [countId]
  | cons ch w ih =>
    cases fuel with
    | zero => simp at enough
    | succ fuel =>
      obtain ⟨other,later⟩ : byte '}' ≠ ch ∧ byte '}' ∉ w := by simpa [not_or] using inside
      have step := ih later (show w.length < fuel by simpa using enough)
      rw [List.cons_append,countId,textCh_cons,if_neg (Ne.symm other),List.tail_cons,step]
      rfl

/-- Without a brace the loop never ends. -/
theorem countId_stuck (open_ : byte '}' ∉ more) (fuel : Nat) : countId fuel more = .error .stuck := by
  induction fuel generalizing more with
  | zero => rfl
  | succ fuel ih =>
    have other : textCh more ≠ byte '}' := by
      cases more with
      | nil => decide
      | cons ch more => exact fun same => open_ (List.mem_cons.mpr (.inl same.symm))
    have later : byte '}' ∉ more.tail := fun mem => open_ (List.mem_of_mem_tail mem)
    rw [countId,if_neg other,ih later,Code.error_bind]

theorem readPlain_text (w rest : Text) : readPlain w.length (w ++ rest) = (w.map UInt8.toNat,rest) := by
  induction w with
  | nil => rfl
  | cons ch w ih => simp [readPlain,ih]

theorem stringVal_bytes (w : Text) : stringVal 1 (w.map UInt8.toNat) = ⟨.array,.chars 1 (w.map UInt8.toNat)⟩ := by
  refine stringVal_chars fun c mem => ?_
  obtain ⟨ch,-,rfl⟩ := List.mem_map.mp mem
  have := ch.toNat_lt
  omega

end IDs

section Letters

variable {others : Text} {token : Token} {ch : UInt8}

theorem symbol_letter {entry : Text × Sy} (member : entry ∈ symbols) (same : entry.1 = ch :: others) : ch ∈ brackets ∨ ch ∈ operators := by
  have head := symbols_head entry member
  rwa [same] at head

theorem lexeme_single (lexeme : Lexeme (byte '\'' :: others) token) : ∃ v c, CharText v c ∧ others = v ++ [byte '\''] := by
  rcases lexeme_cases lexeme with ⟨entry,member,same⟩ | ⟨l,v,c,one,same⟩ | ⟨l,v,cs,-,same⟩ | ⟨dollar,-⟩ | ⟨dollar,-⟩ | ⟨-,name,-⟩ | digit
  · exact absurd (symbol_letter member same) (by decide)
  · rcases wide_head same with ⟨-,-,rfl⟩ | ⟨-,letter,-⟩
    · exact ⟨v,c,one,rfl⟩
    · exact absurd letter (by decide)
  · rcases wide_head same with ⟨-,quote,-⟩ | ⟨-,letter,-⟩
    · exact absurd quote (by decide)
    · exact absurd letter (by decide)
  · exact absurd dollar (by decide)
  · exact absurd dollar (by decide)
  · exact absurd name (by decide)
  · exact absurd digit (by decide)

theorem lexeme_double (lexeme : Lexeme (byte '"' :: others) token) : ∃ v cs, Quoted v cs ∧ others = v ++ [byte '"'] := by
  rcases lexeme_cases lexeme with ⟨entry,member,same⟩ | ⟨l,v,c,-,same⟩ | ⟨l,v,cs,quoted,same⟩ | ⟨dollar,-⟩ | ⟨dollar,-⟩ | ⟨-,name,-⟩ | digit
  · exact absurd (symbol_letter member same) (by decide)
  · rcases wide_head same with ⟨-,quote,-⟩ | ⟨-,letter,-⟩
    · exact absurd quote (by decide)
    · exact absurd letter (by decide)
  · rcases wide_head same with ⟨-,-,rfl⟩ | ⟨-,letter,-⟩
    · exact ⟨v,cs,quoted,rfl⟩
    · exact absurd letter (by decide)
  · exact absurd dollar (by decide)
  · exact absurd dollar (by decide)
  · exact absurd name (by decide)
  · exact absurd digit (by decide)

/-- What begins with a letter: a name, or a literal with the prefix L, or something with the prefix $. -/
theorem lexeme_letter (name : isNameCharacter ch = true) (not_digit : isDigit ch = false) (lexeme : Lexeme (ch :: others) token) :
    (∀ x ∈ others, isNameCharacter x) ∨
    (ch = byte 'L' ∧ ((∃ v c, CharText v c ∧ others = byte '\'' :: (v ++ [byte '\''])) ∨ ∃ v cs, Quoted v cs ∧ others = byte '"' :: (v ++ [byte '"']))) ∨
    (ch = byte '$' ∧ ((∃ v cs, Quoted v cs ∧ others = byte '"' :: (v ++ [byte '"'])) ∨ ∃ v, byte '}' ∉ v ∧ others = byte '{' :: (v ++ [byte '}']))) := by
  have not_quote : ch ≠ byte '\'' ∧ ch ≠ byte '"' := by
    constructor <;> rintro rfl <;> exact absurd name (by decide)
  rcases lexeme_cases lexeme with ⟨entry,member,same⟩ | ⟨l,v,c,one,same⟩ | ⟨l,v,cs,quoted,same⟩ | ⟨dollar,v,cs,quoted,same⟩ |
    ⟨dollar,v,inside,same⟩ | ⟨-,-,all⟩ | digit
  · rcases symbol_letter member same with bracket | operator
    · exact absurd name (by simp [(brackets_plain ch bracket).2.1])
    · exact absurd name (by simp [(operators_plain ch operator).2.1])
  · rcases wide_head same with ⟨-,quote,-⟩ | ⟨-,letter,rest⟩
    · exact absurd quote not_quote.1
    · exact .inr (.inl ⟨letter,.inl ⟨v,c,one,rest⟩⟩)
  · rcases wide_head same with ⟨-,quote,-⟩ | ⟨-,letter,rest⟩
    · exact absurd quote not_quote.2
    · exact .inr (.inl ⟨letter,.inr ⟨v,cs,quoted,rest⟩⟩)
  · exact .inr (.inr ⟨dollar,.inl ⟨v,cs,quoted,same⟩⟩)
  · exact .inr (.inr ⟨dollar,.inr ⟨v,inside,same⟩⟩)
  · exact .inl all
  · exact absurd digit (by simp [not_digit])

end Letters

section Settling

variable {more rest tail : Text} {ch : UInt8} {fuel : Nat}

/-- A token with a body behind its mark: the body that is read is the only one, and the only other lexeme is the name before a quote. -/
theorem settle_body (mark : Text) {Body : Text → Prop} {result : Code (Token × Text)}
    (lexemes : ∀ other token tail, Lexeme other token → mark ++ more = other ++ tail →
      (∃ body, Body body ∧ more = body ++ tail) ∨ ((other = literal "L" ∨ other = literal "$") ∧ more.length ≤ tail.length))
    (unique : ∀ a b tail rest, Body a → Body b → a ++ tail = b ++ rest → tail = rest)
    (decides : (∃ body rest token, more = body ++ rest ∧ Body body ∧ Lexeme (mark ++ body) token ∧ result = .ok (token,rest)) ∨
      (result = .error .exception ∧ ∀ body tail, Body body → more ≠ body ++ tail)) : Settles (mark ++ more) result := by
  rcases decides with ⟨body,rest,token,same,is_body,lexeme,read⟩ | ⟨stop,none_⟩
  · refine .inr ⟨token,rest,read,longest_of (by rw [same,List.append_assoc]) lexeme fun other token tail other_lexeme other_same => ?_⟩
    rcases lexemes other token tail other_lexeme other_same with ⟨other_body,is_other,rest_same⟩ | ⟨-,short⟩
    · rw [same] at rest_same
      rw [unique _ _ _ _ is_body is_other rest_same]
    · have lengths := congrArg List.length same
      rw [List.length_append] at lengths
      omega
  · refine .inl ⟨stop,?_⟩
    rintro other token lexeme ⟨tail,same⟩
    rcases lexemes other token tail lexeme same.symm with ⟨body,is_body,rest_same⟩ | ⟨name,-⟩
    · exact absurd rest_same (none_ body tail is_body)
    · exact name

def CharBody (body : Text) : Prop := ∃ w c, CharText w c ∧ body = w ++ [byte '\'']

def StringBody (body : Text) : Prop := ∃ w cs, Quoted w cs ∧ body = w ++ [byte '"']

theorem charBody_unique (a b tail rest : Text) (one : CharBody a) (other : CharBody b) (same : a ++ tail = b ++ rest) : tail = rest := by
  obtain ⟨v,c,one,rfl⟩ := one
  obtain ⟨w,d,other,rfl⟩ := other
  rw [List.append_assoc,List.append_assoc,List.singleton_append,List.singleton_append] at same
  exact (charText_unique one other same).2

theorem stringBody_unique (a b tail rest : Text) (one : StringBody a) (other : StringBody b) (same : a ++ tail = b ++ rest) : tail = rest := by
  obtain ⟨v,cs,one,rfl⟩ := one
  obtain ⟨w,ds,other,rfl⟩ := other
  rw [List.append_assoc,List.append_assoc,List.singleton_append,List.singleton_append] at same
  exact (quoted_unique one other same).2

theorem parseCharValue_decides (l : Bool) (more : Text) :
    (∃ body rest token, more = body ++ rest ∧ CharBody body ∧ Lexeme (wide l ++ byte '\'' :: body) token ∧ parseCharValue l more = .ok (token,rest)) ∨
    (parseCharValue l more = .error .exception ∧ ∀ body tail, CharBody body → more ≠ body ++ tail) := by
  rcases parseCharValue_cases l more with ⟨w,c,rest,typeClass,size,same,one,read⟩ | ⟨stop,none_⟩
  · exact .inl ⟨_,rest,_,by rw [same,List.append_assoc,List.singleton_append],⟨w,c,one,rfl⟩,.char l w c one typeClass size,read⟩
  · refine .inr ⟨stop,?_⟩
    rintro body tail ⟨w,c,one,rfl⟩
    rw [List.append_assoc,List.singleton_append]
    exact none_ w c tail one

theorem parseStringValue_decides (l : Bool) (more : Text) (enough : more.length < fuel)
    (bytes : l = false → ∀ w cs, Quoted w cs → w ++ [byte '"'] <+: more → ∀ c ∈ cs, c < 256) :
    (∃ body rest token, more = body ++ rest ∧ StringBody body ∧ Lexeme (wide l ++ byte '"' :: body) token ∧
      parseStringValue fuel l more = .ok (token,rest)) ∨
    (parseStringValue fuel l more = .error .exception ∧ ∀ body tail, StringBody body → more ≠ body ++ tail) := by
  rcases countChars_decides more enough with ⟨w,cs,rest,rfl,quoted,count⟩ | ⟨stop,none_⟩
  · have fits : ∀ c ∈ cs, c < 2 ^ (8 * if l then 4 else 1) := by
      intro c mem
      cases l with
      | true =>
        have := quoted_less quoted c mem
        rw [if_pos rfl]
        omega
      | false =>
        have := bytes rfl w cs quoted ⟨rest,by simp⟩ c mem
        rw [if_neg (by decide)]
        omega
    have read : parseStringValue fuel l (w ++ byte '"' :: rest) =
        .ok (⟨.val,some ⟨.array,.chars (if l then 4 else 1) cs⟩,{ noFlags with l := l, s := true }⟩,rest) := by
      simp only [parseStringValue,count,Code.ok_bind,setStringTextVal_quoted quoted,stringVal_chars fits,Code.pure_eq,List.tail_cons]
    exact .inl ⟨_,rest,_,by rw [List.append_assoc,List.singleton_append],⟨w,cs,quoted,rfl⟩,.string l w cs quoted,read⟩
  · refine .inr ⟨by rw [parseStringValue,stop,Code.error_bind],?_⟩
    rintro body tail ⟨w,cs,quoted,rfl⟩
    rw [List.append_assoc,List.singleton_append]
    exact none_ w cs tail quoted

theorem parseQuotedName_decides (more : Text) (enough : more.length < fuel)
    (bytes : ∀ w cs, Quoted w cs → w ++ [byte '"'] <+: more → ∀ c ∈ cs, c < 256) :
    (∃ body rest token, more = body ++ rest ∧ StringBody body ∧ Lexeme (byte '$' :: byte '"' :: body) token ∧
      parseQuotedName fuel more = .ok (token,rest)) ∨
    (parseQuotedName fuel more = .error .exception ∧ ∀ body tail, StringBody body → more ≠ body ++ tail) := by
  rcases countChars_decides more enough with ⟨w,cs,rest,rfl,quoted,count⟩ | ⟨stop,none_⟩
  · have fits : ∀ c ∈ cs, c < 2 ^ (8 * 1) := bytes w cs quoted ⟨rest,by simp⟩
    have read : parseQuotedName fuel (w ++ byte '"' :: rest) = .ok (⟨.name,some ⟨.array,.chars 1 cs⟩,noFlags⟩,rest) := by
      simp only [parseQuotedName,count,Code.ok_bind,setStringTextVal_quoted quoted,stringVal_chars fits,Code.pure_eq,List.tail_cons]
    exact .inl ⟨_,rest,_,by rw [List.append_assoc,List.singleton_append],⟨w,cs,quoted,rfl⟩,.quotedName w cs quoted,read⟩
  · refine .inr ⟨by rw [parseQuotedName,stop,Code.error_bind],?_⟩
    rintro body tail ⟨w,cs,quoted,rfl⟩
    rw [List.append_assoc,List.singleton_append]
    exact none_ w cs tail quoted

/-- Names end before a character that they do not have. -/
theorem names_before {others : Text} (all : ∀ x ∈ others, isNameCharacter x) {mark : UInt8} (outside : isNameCharacter mark = false)
    (same : mark :: more = others ++ tail) : others = [] ∧ tail = mark :: more := by
  cases others with
  | nil => exact ⟨rfl,same.symm⟩
  | cons x others =>
    cases same
    exact absurd (all mark List.mem_cons_self) (by simp [outside])

theorem settle_char (more : Text) : Settles (byte '\'' :: more) (parseCharValue false more) := by
  refine settle_body [byte '\''] (fun other token tail lexeme same => .inl ?_) charBody_unique (parseCharValue_decides false more)
  obtain ⟨others,rfl,rest_same⟩ := lexeme_head lexeme same
  obtain ⟨v,c,one,rfl⟩ := lexeme_single lexeme
  exact ⟨_,⟨v,c,one,rfl⟩,rest_same⟩

theorem settle_string (more : Text) (enough : more.length < fuel)
    (bytes : ∀ w cs, Quoted w cs → w ++ [byte '"'] <+: more → ∀ c ∈ cs, c < 256) : Settles (byte '"' :: more) (parseStringValue fuel false more) := by
  refine settle_body [byte '"'] (fun other token tail lexeme same => .inl ?_) stringBody_unique
    (parseStringValue_decides false more enough fun _ => bytes)
  obtain ⟨others,rfl,rest_same⟩ := lexeme_head lexeme same
  obtain ⟨v,cs,quoted,rfl⟩ := lexeme_double lexeme
  exact ⟨_,⟨v,cs,quoted,rfl⟩,rest_same⟩

/-- A name before a quote is one letter. -/
theorem letter_short {others : Text} (all : ∀ x ∈ others, isNameCharacter x) {mark : UInt8} (outside : isNameCharacter mark = false)
    (same : mark :: more = others ++ tail) : others = [] ∧ more.length ≤ tail.length := by
  obtain ⟨none_,rest⟩ := names_before all outside same
  exact ⟨none_,by rw [rest]; simp⟩

theorem settle_wide_char (more : Text) : Settles (byte 'L' :: byte '\'' :: more) (parseCharValue true more) := by
  refine settle_body [byte 'L',byte '\''] (fun other token tail lexeme same => ?_) charBody_unique (parseCharValue_decides true more)
  obtain ⟨others,rfl,rest_same⟩ := lexeme_head lexeme same
  rcases lexeme_letter (by decide) (by decide) lexeme with all | ⟨-,⟨v,c,one,rfl⟩ | ⟨v,cs,-,rfl⟩⟩ | ⟨dollar,-⟩
  · obtain ⟨rfl,short⟩ := letter_short all (by decide) rest_same
    exact .inr ⟨.inl rfl,short⟩
  · rw [List.cons_append] at rest_same
    injection rest_same with _ rest_same
    exact .inl ⟨_,⟨v,c,one,rfl⟩,rest_same⟩
  · cases rest_same
  · exact absurd dollar (by decide)

theorem settle_wide_string (more : Text) (enough : more.length < fuel) :
    Settles (byte 'L' :: byte '"' :: more) (parseStringValue fuel true more) := by
  refine settle_body [byte 'L',byte '"'] (fun other token tail lexeme same => ?_) stringBody_unique
    (parseStringValue_decides true more enough fun none_ => by cases none_)
  obtain ⟨others,rfl,rest_same⟩ := lexeme_head lexeme same
  rcases lexeme_letter (by decide) (by decide) lexeme with all | ⟨-,⟨v,c,-,rfl⟩ | ⟨v,cs,quoted,rfl⟩⟩ | ⟨dollar,-⟩
  · obtain ⟨rfl,short⟩ := letter_short all (by decide) rest_same
    exact .inr ⟨.inl rfl,short⟩
  · cases rest_same
  · rw [List.cons_append] at rest_same
    injection rest_same with _ rest_same
    exact .inl ⟨_,⟨v,cs,quoted,rfl⟩,rest_same⟩
  · exact absurd dollar (by decide)

theorem settle_quotedName (more : Text) (enough : more.length < fuel)
    (bytes : ∀ w cs, Quoted w cs → w ++ [byte '"'] <+: more → ∀ c ∈ cs, c < 256) :
    Settles (byte '$' :: byte '"' :: more) (parseQuotedName fuel more) := by
  refine settle_body [byte '$',byte '"'] (fun other token tail lexeme same => ?_) stringBody_unique (parseQuotedName_decides more enough bytes)
  obtain ⟨others,rfl,rest_same⟩ := lexeme_head lexeme same
  rcases lexeme_letter (by decide) (by decide) lexeme with all | ⟨letter,-⟩ | ⟨-,⟨v,cs,quoted,rfl⟩ | ⟨v,-,rfl⟩⟩
  · obtain ⟨rfl,short⟩ := letter_short all (by decide) rest_same
    exact .inr ⟨.inr rfl,short⟩
  · exact absurd letter (by decide)
  · rw [List.cons_append] at rest_same
    injection rest_same with _ rest_same
    exact .inl ⟨_,⟨v,cs,quoted,rfl⟩,rest_same⟩
  · cases rest_same

def IdBody (body : Text) : Prop := ∃ w, byte '}' ∉ w ∧ body = w ++ [byte '}']

theorem idBody_unique (a b tail rest : Text) (one : IdBody a) (other : IdBody b) (same : a ++ tail = b ++ rest) : tail = rest := by
  obtain ⟨v,inside,rfl⟩ := one
  obtain ⟨w,other,rfl⟩ := other
  rw [List.append_assoc,List.append_assoc,List.singleton_append,List.singleton_append] at same
  have first := countId_text inside tail (show v.length < v.length + w.length + 1 by omega)
  have second := countId_text other rest (show w.length < v.length + w.length + 1 by omega)
  rw [same,second] at first
  injection first with first
  injection first with _ rests
  injection rests with _ rests
  exact rests.symm

theorem settle_id (closed : byte '}' ∈ more) (enough : more.length < fuel) : Settles (byte '$' :: byte '{' :: more) (parseId fuel more) := by
  refine settle_body [byte '$',byte '{'] (fun other token tail lexeme same => ?_) idBody_unique (.inl ?_)
  · obtain ⟨others,rfl,rest_same⟩ := lexeme_head lexeme same
    rcases lexeme_letter (by decide) (by decide) lexeme with all | ⟨letter,-⟩ | ⟨-,⟨v,cs,-,rfl⟩ | ⟨v,inside,rfl⟩⟩
    · obtain ⟨rfl,short⟩ := letter_short all (by decide) rest_same
      exact .inr ⟨.inr rfl,short⟩
    · exact absurd letter (by decide)
    · cases rest_same
    · rw [List.cons_append] at rest_same
      injection rest_same with _ rest_same
      exact .inl ⟨_,⟨v,inside,rfl⟩,rest_same⟩
  · obtain ⟨w,rest,rfl,inside⟩ := List.eq_append_cons_of_mem closed
    have count := countId_text inside rest (show w.length < fuel by rw [List.length_append] at enough; omega)
    have read : parseId fuel (w ++ byte '}' :: rest) = .ok (⟨.id,some ⟨.array,.chars 1 (w.map UInt8.toNat)⟩,noFlags⟩,rest) := by
      simp only [parseId,count,Code.ok_bind,setStringTextVal,Bool.false_eq_true,if_false,readPlain_text,stringVal_bytes,Code.pure_eq,List.tail_cons]
    exact ⟨_,rest,_,by rw [List.append_assoc,List.singleton_append],⟨w,inside,rfl⟩,.id w inside,read⟩

end Settling

end Tcf.Expressions
