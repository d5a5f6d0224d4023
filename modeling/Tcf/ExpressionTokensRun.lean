import Mathlib.Data.List.DropRight
import Tcf.ExpressionTokensExact

/-! Calls of the lexer up to the end of a text. -/
namespace Tcf.Expressions

open Json

section Names

variable {more tail w : Text} {token : Token} {ch : UInt8} {size : Nat} {cs : List Nat}

theorem sizeof_iff (w : Text) : stringVal 1 (w.map UInt8.toNat) = sizeofVal ↔ w = literal "sizeof" := by
  have injective : Function.Injective (List.map UInt8.toNat) := List.map_injective_iff.mpr fun _ _ => UInt8.toNat_inj.mp
  rw [sizeofVal,stringVal_bytes,stringVal_bytes]
  constructor
  · intro same
    injection same with _ same
    injection same with _ same
    exact injective same
  · rintro rfl
    rfl

theorem parseName_eq (text : Text) : parseName text =
    .ok (⟨if text.takeWhile isNameCharacter = literal "sizeof" then .sizeof else .name,
      some ⟨.array,.chars 1 ((text.takeWhile isNameCharacter).map UInt8.toNat)⟩,noFlags⟩,text.dropWhile isNameCharacter) := by
  have plain := readPlain_text (text.takeWhile isNameCharacter) (text.dropWhile isNameCharacter)
  rw [List.takeWhile_append_dropWhile] at plain
  have read : setStringTextVal text (text.takeWhile isNameCharacter).length false 1 =
      .ok (stringVal 1 ((text.takeWhile isNameCharacter).map UInt8.toNat),text.dropWhile isNameCharacter) := by
    simp only [setStringTextVal,Bool.false_eq_true,if_false,plain]
  simp only [parseName,read,Code.ok_bind,sizeof_iff,Code.pure_eq]
  rw [stringVal_bytes]

/-- A name takes all of its characters, where it is not the prefix of a quote. -/
theorem settle_name (name : isNameCharacter ch = true) (not_digit : isDigit ch = false)
    (not_dollar : ch = byte '$' → textCh more ≠ byte '"' ∧ textCh more ≠ byte '{')
    (not_wide : ch = byte 'L' → textCh more ≠ byte '\'' ∧ textCh more ≠ byte '"') : Settles (ch :: more) (parseName (ch :: more)) := by
  have nonempty : (ch :: more).takeWhile isNameCharacter ≠ [] := by
    rw [List.takeWhile_cons_of_pos name]
    exact List.cons_ne_nil _ _
  have start : ∀ first ∈ ((ch :: more).takeWhile isNameCharacter).head?, isDigit first = false := by
    intro first head
    rw [List.takeWhile_cons_of_pos name] at head
    cases head
    exact not_digit
  refine .inr ⟨_,_,parseName_eq _,longest_of (List.takeWhile_append_dropWhile).symm (.name _ nonempty start (takeWhile_all _)) ?_⟩
  intro other token tail lexeme same
  obtain ⟨others,rfl,rest_same⟩ := lexeme_head lexeme same
  rcases lexeme_letter name not_digit lexeme with all | ⟨letter,quote⟩ | ⟨dollar,quote⟩
  · have run : ∀ x ∈ ch :: others, isNameCharacter x := List.forall_mem_cons.mpr ⟨name,all⟩
    rw [same,List.dropWhile_append_of_pos run]
    exact (List.dropWhile_suffix isNameCharacter).length_le
  · obtain ⟨not_single,not_double⟩ := not_wide letter
    rcases quote with ⟨v,c,-,rfl⟩ | ⟨v,cs,-,rfl⟩
    · exact absurd (by rw [rest_same]; rfl) not_single
    · exact absurd (by rw [rest_same]; rfl) not_double
  · obtain ⟨not_double,not_brace⟩ := not_dollar dollar
    rcases quote with ⟨v,cs,-,rfl⟩ | ⟨v,-,rfl⟩
    · exact absurd (by rw [rest_same]; rfl) not_double
    · exact absurd (by rw [rest_same]; rfl) not_brace

/-- Nothing begins with any other character. -/
theorem settle_illegal (plain : Plain ch) (no_bracket : ch ∉ brackets) (no_operator : ch ∉ operators) (more : Text) :
    Settles (ch :: more) (.error .exception) := by
  refine .inl ⟨rfl,?_⟩
  rintro other token lexeme ⟨tail,same⟩
  obtain ⟨others,rfl,-⟩ := lexeme_head lexeme same.symm
  obtain ⟨entry,member,entry_same⟩ := lexeme_plain plain lexeme
  rcases symbol_letter member entry_same with bracket | operator
  · exact absurd bracket no_bracket
  · exact absurd operator no_operator

/-- The characters of a token are those of its lexeme. -/
theorem lexeme_chars (lexeme : Lexeme w token) (value : token.val = some ⟨.array,.chars size cs⟩) :
    (∃ l v, Quoted v cs ∧ w = wide l ++ byte '"' :: (v ++ [byte '"'])) ∨ (∃ v, Quoted v cs ∧ w = byte '$' :: byte '"' :: (v ++ [byte '"'])) ∨
    (∃ v, w = byte '$' :: byte '{' :: (v ++ [byte '}'])) ∨ ∀ ch ∈ w, isNameCharacter ch := by
  cases lexeme with
  | symbol => cases value
  | char => cases value
  | string l v cs quoted =>
    cases value
    exact .inl ⟨l,v,quoted,rfl⟩
  | quotedName v cs quoted =>
    cases value
    exact .inr (.inl ⟨v,quoted,rfl⟩)
  | id v => exact .inr (.inr (.inl ⟨v,rfl⟩))
  | name _ _ _ all => exact .inr (.inr (.inr all))
  | integer => cases value
  | real => cases value

end Names

section Steps

variable {text left more : Text} {ch : UInt8} {fuel : Nat}

theorem correct_of (there : text.dropWhile isSpace ≠ []) : Correct text ↔ Settles (text.dropWhile isSpace) (next text) := by
  constructor
  · rintro (refused | ⟨-,ends⟩ | longest)
    · exact .inl refused
    · exact absurd ends there
    · exact .inr longest
  · rintro (refused | longest)
    · exact .inl refused
    · exact .inr (.inr longest)

theorem next_eq (text : Text) : next text = nextSy (text.length + 1) (text.dropWhile isSpace) := by
  rw [next,nextSy,nextSy,List.dropWhile_idempotent]

/-- One call, by the first character that is no space. -/
theorem nextSy_settles (there : left = ch :: more) (space : isSpace ch = false) (enough : left.length < fuel)
    (operators : ∀ op ∈ [byte '/',byte '%'], ∀ ch ∈ [byte '=',byte '|'], ¬[op,ch] <+: left)
    (closed : ∀ rest, left = byte '$' :: byte '{' :: rest → byte '}' ∈ rest)
    (bytes : ∀ mark ∈ [[byte '"'],[byte '$',byte '"']], ∀ w cs, Quoted w cs → mark ++ (w ++ [byte '"']) <+: left → ∀ c ∈ cs, c < 256) :
    Settles left (nextSy fuel left) := by
  subst there
  have stays : (ch :: more).dropWhile isSpace = ch :: more := List.dropWhile_cons_of_neg (by simp [space])
  rw [List.length_cons] at enough
  rw [nextSy,stays]
  -- The text behind a prefix of two characters.
  have behind : ∀ {mark}, textCh more = mark → mark ≠ 0 → more = mark :: more.tail ∧ more.tail.length < fuel := by
    intro mark same there
    cases more with
    | nil => exact absurd same.symm there
    | cons first more =>
      rw [textCh_cons] at same
      rw [List.length_cons] at enough
      exact ⟨by rw [same]; rfl,by rw [List.tail_cons]; omega⟩
  by_cases bracket : ch ∈ brackets
  · simp only [if_pos bracket]
    exact settle_bracket bracket more
  by_cases operator : ch ∈ Expressions.operators
  · simp only [if_neg bracket,if_pos operator]
    refine settle_operator operator fun slash next mem there => operators ch slash next mem ?_
    obtain ⟨rest,rfl⟩ := there
    exact ⟨rest,rfl⟩
  by_cases single : ch = byte '\''
  · subst single
    simp only [if_neg bracket,if_neg operator]
    exact settle_char more
  by_cases double : ch = byte '"'
  · subst double
    simp only [if_neg bracket,if_neg operator,if_neg single]
    refine settle_string more (by omega) fun w cs quoted there => bytes [byte '"'] (by simp) w cs quoted ?_
    obtain ⟨rest,rfl⟩ := there
    exact ⟨rest,rfl⟩
  by_cases zero : ch = byte '0'
  · subst zero
    simp only [if_neg bracket,if_neg operator,if_neg single,if_neg double]
    exact settle_zero more
  cases digit : isDigit ch with
  | true =>
    simp only [if_neg bracket,if_neg operator,if_neg single,if_neg double,if_neg zero,digit]
    exact settle_decimal digit zero more
  | false =>
    simp only [if_neg bracket,if_neg operator,if_neg single,if_neg double,if_neg zero,digit,Bool.false_eq_true,if_false]
    by_cases quotedName : ch = byte '$' ∧ textCh more = byte '"'
    · rw [if_pos quotedName]
      obtain ⟨rfl,same⟩ := quotedName
      obtain ⟨same,short⟩ := behind same (by decide)
      rw [same] at bytes ⊢
      refine settle_quotedName more.tail short fun w cs quoted there => bytes [byte '$',byte '"'] (by simp) w cs quoted ?_
      obtain ⟨rest,tail⟩ := there
      exact ⟨rest,by rw [← tail]; rfl⟩
    rw [if_neg quotedName]
    by_cases id : ch = byte '$' ∧ textCh more = byte '{'
    · rw [if_pos id]
      obtain ⟨rfl,same⟩ := id
      obtain ⟨same,short⟩ := behind same (by decide)
      rw [same] at closed ⊢
      exact settle_id (closed _ rfl) short
    rw [if_neg id]
    by_cases wideChar : ch = byte 'L' ∧ textCh more = byte '\''
    · rw [if_pos wideChar]
      obtain ⟨rfl,same⟩ := wideChar
      obtain ⟨same,-⟩ := behind same (by decide)
      rw [same]
      exact settle_wide_char more.tail
    rw [if_neg wideChar]
    by_cases wideString : ch = byte 'L' ∧ textCh more = byte '"'
    · rw [if_pos wideString]
      obtain ⟨rfl,same⟩ := wideString
      obtain ⟨same,short⟩ := behind same (by decide)
      rw [same]
      exact settle_wide_string more.tail short
    rw [if_neg wideString]
    cases name : isNameCharacter ch with
    | true =>
      rw [if_pos rfl]
      exact settle_name name digit (fun dollar => ⟨fun same => quotedName ⟨dollar,same⟩,fun same => id ⟨dollar,same⟩⟩)
        fun letter => ⟨fun same => wideChar ⟨letter,same⟩,fun same => wideString ⟨letter,same⟩⟩
    | false =>
      rw [if_neg (by decide)]
      exact settle_illegal ⟨digit,name,single,double⟩ bracket operator more

theorem regular_correct (regular : Regular text) : Correct text := by
  cases there : text.dropWhile isSpace with
  | nil =>
    right
    left
    refine ⟨?_,there⟩
    rw [next_eq,there]
    rfl
  | cons ch more =>
    rw [correct_of (by rw [there]; exact List.cons_ne_nil _ _),next_eq]
    have space : isSpace ch = false := takeWhile_stops isSpace text ch (by rw [there]; rfl)
    have short := (List.dropWhile_suffix (l := text) isSpace).length_le
    exact nextSy_settles there space (by omega) regular.operators regular.closed regular.bytes

end Steps

section Defects

variable {text left more w rest : Text} {op mark : UInt8} {cs : List Nat}

/-- The alternatives of these two characters look for a bar, where the operators have an equals sign. -/
theorem slash_symbols : ∀ op ∈ [byte '/',byte '%'], op ∈ operators ∧ op ∉ brackets ∧ (∃ entry ∈ symbols, entry.1 = [op,byte '=']) ∧
    (∀ entry ∈ symbols, entry.1 ≠ [op,byte '|']) ∧ (alternatives op).map (fun alternative => literal alternative.1) = [[byte '|']] :=
  forall_of_all (by decide)

theorem operator_slash (slash : op ∈ [byte '/',byte '%']) (more : Text) : (operator op more).2 = if [byte '|'] <+: more then more.drop 1 else more := by
  obtain ⟨-,-,-,-,only⟩ := slash_symbols op slash
  obtain ⟨alternative,listed,bar⟩ := List.map_eq_singleton_iff.mp only
  rw [operator,listed]
  by_cases there : [byte '|'] <+: more
  · have found : [alternative].find? (fun alternative => literal alternative.1 <+: more) = some alternative := by simp [bar,there]
    rw [found,if_pos there]
    exact congrArg (fun bar => more.drop bar.length) bar
  · have missed : [alternative].find? (fun alternative => literal alternative.1 <+: more) = none := by simp [bar,there]
    rw [missed,if_neg there]

/-- A correct call at a token of the text. -/
theorem correct_token {ch : UInt8} {token : Token} (correct : Correct text) (there : text.dropWhile isSpace = ch :: more)
    (call : nextSy (text.length + 1) (ch :: more) = .ok (token,rest)) : Longest (ch :: more) token rest := by
  rw [correct_of (by rw [there]; exact List.cons_ne_nil _ _),next_eq,there,call] at correct
  rcases correct with ⟨stop,-⟩ | ⟨found,left,same,longest⟩
  · cases stop
  · cases same
    exact longest

theorem space_stays {ch : UInt8} (there : text.dropWhile isSpace = ch :: more) : (ch :: more).dropWhile isSpace = ch :: more := by
  rw [← there,List.dropWhile_idempotent]

theorem correct_operators (correct : Correct text) (slash : op ∈ [byte '/',byte '%']) (next : mark ∈ [byte '=',byte '|']) :
    ¬[op,mark] <+: text.dropWhile isSpace := by
  rintro ⟨rest,same⟩
  have there : text.dropWhile isSpace = op :: mark :: rest := same.symm
  obtain ⟨listed,bracket,⟨entry,member,assigns⟩,no_bar,-⟩ := slash_symbols op slash
  have call : nextSy (text.length + 1) (op :: mark :: rest) =
      .ok (⟨(operator op (mark :: rest)).1,none,noFlags⟩,(operator op (mark :: rest)).2) := by
    rw [nextSy,space_stays there]
    simp only [if_neg bracket,if_pos listed]
  obtain ⟨w,whole,lexeme,longest⟩ := correct_token correct there call
  rw [operator_slash slash] at whole
  simp only [List.mem_cons,List.not_mem_nil,or_false] at next
  rcases next with rfl | rfl
  · -- The equals sign is left, though it belongs to the operator.
    have other : ¬[byte '|'] <+: byte '=' :: rest := by
      rintro ⟨tail,same⟩
      cases same
    rw [if_neg other] at whole
    have longer := longest entry.1 _ (.symbol entry member) ⟨rest,by rw [assigns]; rfl⟩
    have lengths := congrArg List.length whole
    rw [assigns] at longer
    simp only [List.length_append,List.length_cons,List.length_nil] at lengths longer
    omega
  · -- The bar is taken, though no operator has it.
    rw [if_pos ⟨rest,rfl⟩] at whole
    have one : w = [op,byte '|'] := List.append_cancel_right whole.symm
    subst one
    obtain ⟨digit,name,quotes⟩ := operators_plain op listed
    obtain ⟨found,found_member,found_same⟩ := lexeme_plain ⟨digit,name,quotes⟩ lexeme
    exact no_bar found found_member found_same

theorem correct_closed (correct : Correct text) (there : text.dropWhile isSpace = byte '$' :: byte '{' :: rest) : byte '}' ∈ rest := by
  by_contra open_
  have call : nextSy (text.length + 1) (byte '$' :: byte '{' :: rest) = .error .stuck := by
    rw [nextSy,space_stays there]
    have stuck : parseId (text.length + 1) rest = .error .stuck := by rw [parseId,countId_stuck open_,Code.error_bind]
    exact stuck
  rw [correct_of (by rw [there]; exact List.cons_ne_nil _ _),next_eq,there,call] at correct
  rcases correct with ⟨stop,-⟩ | ⟨token,left,same,-⟩
  · cases stop
  · cases same

/-- Characters of a string that are stored as they are fit into bytes. -/
theorem stored_bytes (same : cs.map (· % 2 ^ (8 * 1)) = cs) : ∀ c ∈ cs, c < 256 := by
  intro c mem
  rw [← same] at mem
  obtain ⟨d,-,rfl⟩ := List.mem_map.mp mem
  exact Nat.mod_lt _ (by decide)

theorem correct_string (correct : Correct text) (quoted : Quoted w cs) (there : text.dropWhile isSpace = byte '"' :: (w ++ byte '"' :: rest)) :
    ∀ c ∈ cs, c < 256 := by
  have short := (List.dropWhile_suffix (l := text) isSpace).length_le
  rw [there] at short
  simp only [List.length_cons,List.length_append] at short
  have call : nextSy (text.length + 1) (byte '"' :: (w ++ byte '"' :: rest)) =
      .ok (⟨.val,some (stringVal 1 cs),{ noFlags with s := true }⟩,rest) := by
    rw [nextSy,space_stays there]
    have count := countChars_quoted quoted rest (show w.length < text.length + 1 by omega)
    have read : parseStringValue (text.length + 1) false (w ++ byte '"' :: rest) =
        .ok (⟨.val,some (stringVal 1 cs),{ noFlags with s := true }⟩,rest) := by
      simp only [parseStringValue,count,Code.ok_bind,Bool.false_eq_true,if_false,setStringTextVal_quoted quoted,Code.pure_eq,List.tail_cons]
      rfl
    exact read
  obtain ⟨v,whole,lexeme,-⟩ := correct_token correct there call
  obtain ⟨others,rfl,rest_same⟩ := lexeme_head lexeme whole
  rcases lexeme_chars lexeme rfl with ⟨l,v,stored,same⟩ | ⟨v,-,same⟩ | ⟨v,same⟩ | all
  · rcases wide_head same with ⟨-,-,rfl⟩ | ⟨-,letter,-⟩
    · rw [List.append_assoc,List.singleton_append] at rest_same
      exact stored_bytes (quoted_unique quoted stored rest_same).1.symm
    · exact absurd letter (by decide)
  · cases same
  · cases same
  · exact absurd (all _ List.mem_cons_self) (by decide)

theorem correct_quotedName (correct : Correct text) (quoted : Quoted w cs)
    (there : text.dropWhile isSpace = byte '$' :: byte '"' :: (w ++ byte '"' :: rest)) : ∀ c ∈ cs, c < 256 := by
  have short := (List.dropWhile_suffix (l := text) isSpace).length_le
  rw [there] at short
  simp only [List.length_cons,List.length_append] at short
  have call : nextSy (text.length + 1) (byte '$' :: byte '"' :: (w ++ byte '"' :: rest)) = .ok (⟨.name,some (stringVal 1 cs),noFlags⟩,rest) := by
    rw [nextSy,space_stays there]
    have count := countChars_quoted quoted rest (show w.length < text.length + 1 by omega)
    have read : parseQuotedName (text.length + 1) (w ++ byte '"' :: rest) = .ok (⟨.name,some (stringVal 1 cs),noFlags⟩,rest) := by
      simp only [parseQuotedName,count,Code.ok_bind,setStringTextVal_quoted quoted,Code.pure_eq,List.tail_cons]
    exact read
  obtain ⟨v,whole,lexeme,-⟩ := correct_token correct there call
  obtain ⟨others,rfl,rest_same⟩ := lexeme_head lexeme whole
  rcases lexeme_chars lexeme rfl with ⟨l,v,-,same⟩ | ⟨v,stored,same⟩ | ⟨v,same⟩ | all
  · rcases wide_head same with ⟨-,quote,-⟩ | ⟨-,letter,-⟩
    · exact absurd quote (by decide)
    · exact absurd letter (by decide)
  · injection same with _ same
    subst same
    rw [List.cons_append,List.append_assoc,List.singleton_append] at rest_same
    injection rest_same with _ rest_same
    exact stored_bytes (quoted_unique quoted stored rest_same).1.symm
  · injection same with _ same
    subst same
    rw [List.cons_append] at rest_same
    injection rest_same with brace _
    exact absurd brace (by decide)
  · obtain ⟨-,same⟩ := names_before (fun x mem => all x (List.mem_cons_of_mem _ mem)) (by decide) rest_same
    have lengths := congrArg List.length same
    simp only [List.length_cons,List.length_append] at lengths
    omega

theorem correct_iff (text : Text) : Correct text ↔ Regular text := by
  refine ⟨fun correct => ⟨fun op slash mark next => correct_operators correct slash next,fun rest there => correct_closed correct there,?_⟩,regular_correct⟩
  rintro marks mem w cs quoted ⟨rest,same⟩
  rw [List.append_assoc,List.append_assoc,List.singleton_append] at same
  simp only [List.mem_cons,List.not_mem_nil,or_false] at mem
  rcases mem with rfl | rfl
  · exact correct_string correct quoted same.symm
  · exact correct_quotedName correct quoted same.symm

end Defects

section Texts

variable {text left rest : Text} {token : Token}

theorem reaches_next (call : next text = .ok (token,rest)) (more : token.sy ≠ .none) (later : Reaches rest left) : Reaches text left := by
  induction later with
  | start => exact .step .start call more
  | step _ again goes_on ih => exact .step ih again goes_on

/-- Each token takes some of the text. -/
theorem longest_shorter (longest : Longest (text.dropWhile isSpace) token rest) : rest.length < text.length := by
  obtain ⟨w,same,lexeme,-⟩ := longest
  have short := (List.dropWhile_suffix (l := text) isSpace).length_le
  have positive : 0 < w.length := List.length_pos_iff.mpr (lexeme_nonempty lexeme)
  rw [same,List.length_append] at short
  omega

/-- Correct calls come to an end. -/
theorem lex_ends (text : Text) (correct : ∀ left, Reaches text left → Correct left) :
    ∃ calls, (∃ tokens, lex calls text = .ok tokens) ∨ lex calls text = .error .exception := by
  induction size : text.length using Nat.strong_induction_on generalizing text with
  | _ size ih =>
    subst size
    rcases correct text .start with ⟨stop,-⟩ | ⟨ends,-⟩ | ⟨token,rest,call,longest⟩
    · exact ⟨1,.inr (by rw [lex,stop,Code.error_bind])⟩
    · exact ⟨1,.inl ⟨[],by rw [lex,ends]; rfl⟩⟩
    · by_cases more : token.sy = .none
      · refine ⟨1,.inl ⟨[],?_⟩⟩
        rw [lex,call,Code.ok_bind]
        simp only [if_pos more,Code.pure_eq]
      · obtain ⟨calls,tokens | stop⟩ := ih rest.length (longest_shorter longest) rest (fun left later => correct left (reaches_next call more later)) rfl
        · obtain ⟨tokens,later⟩ := tokens
          refine ⟨calls + 1,.inl ⟨token :: tokens,?_⟩⟩
          rw [lex,call,Code.ok_bind]
          simp only [if_neg more,later,Code.ok_bind,Code.pure_eq]
        · refine ⟨calls + 1,.inr ?_⟩
          rw [lex,call,Code.ok_bind]
          simp only [if_neg more,stop,Code.error_bind]

/-- The lexer follows its grammar in just those texts of which every rest that it comes to is regular. -/
theorem lexer_follows_iff (text : Text) : FollowsGrammar text ↔ ∀ left, Reaches text left → Regular left := by
  constructor
  · intro follows left reaches
    exact (correct_iff left).mp (follows.2 left reaches)
  · intro regular
    have correct : ∀ left, Reaches text left → Correct left := fun left reaches => (correct_iff left).mpr (regular left reaches)
    exact ⟨lex_ends text correct,correct⟩

/-- The operator `/=` is read as two tokens. -/
theorem division_split : ¬FollowsGrammar (literal "a/=b") := by
  intro follows
  have call : next (literal "a/=b") = .ok (⟨.name,some ⟨.array,.chars 1 [97]⟩,noFlags⟩,literal "/=b") := by decide +kernel
  have correct := follows.2 _ (.step .start call (by decide))
  exact @correct_operators _ (byte '/') (byte '=') correct (by simp) (by simp) (by decide)

end Texts

end Tcf.Expressions
