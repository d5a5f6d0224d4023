import Mathlib.Data.Nat.Bitwise
import Tcf.ExpressionLiteralsExact
import Tcf.ExpressionTokens

/-! Characters, strings and numbers as the lexer reads them, against the grammar. -/
namespace Tcf.Expressions

open Json

section Characters

variable {w text rest more : Text} {c : Nat} {cs : List Nat} {ch : UInt8} {fuel : Nat}

theorem hexValue_less (hex : isHex ch = true) : hexValue ch < 16 := by
  simp only [isHex,isDigit,decide_eq_true_eq] at hex
  simp only [hexValue,isDigit,decide_eq_true_eq]
  simp only [UInt8.le_iff_toNat_le,show (byte '0').toNat = 48 from rfl,show (byte '9').toNat = 57 from rfl,show (byte 'A').toNat = 65 from rfl,
    show (byte 'F').toNat = 70 from rfl,show (byte 'a').toNat = 97 from rfl,show (byte 'f').toNat = 102 from rfl] at hex ⊢
  split
  · omega
  · split <;> omega

theorem hexValue_octal (octal : isOctal ch = true) : hexValue ch < 8 := by
  have digit := isOctal_digit octal
  simp only [isOctal,decide_eq_true_eq] at octal
  simp only [UInt8.le_iff_toNat_le,show (byte '0').toNat = 48 from rfl,show (byte '7').toNat = 55 from rfl] at octal
  rw [hexValue,if_pos digit]
  omega

theorem first_octal (first : byte '0' ≤ ch ∧ ch ≤ byte '3') : isOctal ch = true := by
  simp only [isOctal,decide_eq_true_eq]
  exact ⟨first.1,UInt8.le_trans first.2 (show byte '3' ≤ byte '7' by decide)⟩

/-- Digits that do not reach into each other. -/
theorem or_add (shift : Nat) {a b : Nat} (less : b < 2 ^ shift) : (a <<< shift) ||| b = a * 2 ^ shift + b := by
  rw [← Nat.shiftLeft_add_eq_or_of_lt less,Nat.shiftLeft_eq]

theorem nextThree_text {next : Text → Code (Nat × Text)} {shift : Nat} {a b c : UInt8}
    (reads : ∀ ch ∈ [a,b,c], hexValue ch < 2 ^ shift ∧ ∀ rest, next (ch :: rest) = .ok (hexValue ch,rest)) :
    nextThree next shift (a :: b :: c :: rest) = .ok ((hexValue a * 2 ^ shift + hexValue b) * 2 ^ shift + hexValue c,rest) := by
  obtain ⟨-,first⟩ := reads a (by simp)
  obtain ⟨b_less,second⟩ := reads b (by simp)
  obtain ⟨c_less,third⟩ := reads c (by simp)
  simp only [nextThree,first,second,third,Code.ok_bind,Code.pure_eq]
  rw [or_add shift b_less,or_add shift c_less]

theorem nextCharVal_text (one : CharText w c) (rest : Text) : nextCharVal (w ++ rest) = .ok (c,rest) := by
  cases one with
  | plain ch other => simp [nextCharVal,textCh,other]
  | hex a b c digits =>
    have reads : ∀ ch ∈ [a,b,c], hexValue ch < 2 ^ 4 ∧ ∀ rest, nextHex (ch :: rest) = .ok (hexValue ch,rest) := by
      intro ch mem
      have hex : isHex ch = true := by
        simp only [List.mem_cons,List.not_mem_nil,or_false] at mem
        rcases mem with rfl | rfl | rfl
        · exact digits.1
        · exact digits.2.1
        · exact digits.2.2
      exact ⟨hexValue_less hex,fun rest => by simp [nextHex,textCh,hex]⟩
    have value := @nextThree_text rest nextHex 4 a b c reads
    simpa [nextCharVal,textCh] using value
  | octal a b c first digits =>
    have reads : ∀ ch ∈ [a,b,c], hexValue ch < 2 ^ 3 ∧ ∀ rest, nextOct (ch :: rest) = .ok (hexValue ch,rest) := by
      intro ch mem
      have octal : isOctal ch = true := by
        simp only [List.mem_cons,List.not_mem_nil,or_false] at mem
        rcases mem with rfl | rfl | rfl
        · exact first_octal first
        · exact digits.1
        · exact digits.2
      exact ⟨hexValue_octal octal,fun rest => by simp [nextOct,textCh,octal]⟩
    have value := @nextThree_text rest nextOct 3 a b c reads
    have not_hex : a ≠ byte 'x' := by
      rintro rfl
      exact absurd first (by decide)
    simpa [nextCharVal,textCh,not_hex,first] using value
  | escape ch not_hex not_octal => simp [nextCharVal,textCh,not_hex,not_octal]

/-- Three digits, or an exception. -/
theorem nextThree_cases (shift : Nat) {next : Text → Code (Nat × Text)} {kind : UInt8 → Bool} (text : Text)
    (reads : ∀ text, (∃ ch rest, text = ch :: rest ∧ kind ch = true ∧ next text = .ok (hexValue ch,rest)) ∨ next text = .error .exception) :
    (∃ a b c rest, text = a :: b :: c :: rest ∧ kind a = true ∧ kind b = true ∧ kind c = true) ∨ nextThree next shift text = .error .exception := by
  rcases reads text with ⟨a,text,rfl,kind_a,first⟩ | stop
  · rcases reads text with ⟨b,text,rfl,kind_b,second⟩ | stop
    · rcases reads text with ⟨c,text,rfl,kind_c,third⟩ | stop
      · exact .inl ⟨a,b,c,text,rfl,kind_a,kind_b,kind_c⟩
      · right
        simp only [nextThree,first,second,stop,Code.ok_bind,Code.error_bind]
    · right
      simp only [nextThree,first,stop,Code.ok_bind,Code.error_bind]
  · right
    simp only [nextThree,stop,Code.error_bind]

theorem nextHex_cases (text : Text) :
    (∃ ch rest, text = ch :: rest ∧ isHex ch = true ∧ nextHex text = .ok (hexValue ch,rest)) ∨ nextHex text = .error .exception := by
  cases text with
  | nil => exact .inr rfl
  | cons ch rest =>
    by_cases hex : isHex ch = true
    · exact .inl ⟨ch,rest,rfl,hex,by simp [nextHex,textCh,hex]⟩
    · exact .inr (by simp [nextHex,textCh,hex])

theorem nextOct_cases (text : Text) :
    (∃ ch rest, text = ch :: rest ∧ isOctal ch = true ∧ nextOct text = .ok (hexValue ch,rest)) ∨ nextOct text = .error .exception := by
  cases text with
  | nil => exact .inr rfl
  | cons ch rest =>
    by_cases octal : isOctal ch = true
    · exact .inl ⟨ch,rest,rfl,octal,by simp [nextOct,textCh,octal]⟩
    · exact .inr (by simp [nextOct,textCh,octal])

/-- A character is read, or there is an exception, or the text ends behind a backslash. -/
theorem nextCharVal_cases (text : Text) :
    (∃ w c rest, text = w ++ rest ∧ CharText w c) ∨ text = [byte '\\'] ∨ nextCharVal text = .error .exception := by
  cases text with
  | nil => exact .inr (.inr rfl)
  | cons ch text =>
    by_cases backslash : ch = byte '\\'
    · subst backslash
      cases text with
      | nil => exact .inr (.inl rfl)
      | cons ch text =>
        by_cases hex : ch = byte 'x'
        · subst hex
          rcases nextThree_cases 4 text nextHex_cases with ⟨a,b,c,rest,rfl,digits⟩ | stop
          · exact .inl ⟨_,_,rest,rfl,.hex a b c digits⟩
          · right
            right
            simpa [nextCharVal,textCh] using stop
        · by_cases octal : byte '0' ≤ ch ∧ ch ≤ byte '3'
          · rcases nextThree_cases 3 (ch :: text) nextOct_cases with ⟨a,b,c,rest,same,-,digits⟩ | stop
            · cases same
              exact .inl ⟨_,_,rest,rfl,.octal ch b c octal digits⟩
            · right
              right
              simpa [nextCharVal,textCh,hex,octal] using stop
          · exact .inl ⟨_,_,text,rfl,.escape ch hex octal⟩
    · exact .inl ⟨_,_,text,rfl,.plain ch backslash⟩

theorem charText_head (one : CharText w c) (inside : w ≠ [byte '"']) : ∃ ch others, w = ch :: others ∧ ch ≠ byte '"' := by
  cases one with
  | plain ch other => exact ⟨ch,[],rfl,fun same => inside (by rw [same])⟩
  | hex => exact ⟨_,_,rfl,by decide⟩
  | octal => exact ⟨_,_,rfl,by decide⟩
  | escape => exact ⟨_,_,rfl,by decide⟩

end Characters

section Strings

variable {w text rest more : Text} {c : Nat} {cs : List Nat} {ch : UInt8} {fuel : Nat}

theorem countChars_quoted (quoted : Quoted w cs) (more : Text) (enough : w.length < fuel) :
    countChars fuel (w ++ byte '"' :: more) = .ok (cs.length,byte '"' :: more) := by
  induction quoted generalizing fuel with
  | nil =>
    cases fuel with
    | zero => simp at enough
    | succ fuel => simp [countChars,textCh]
  | cons head inside tail ih =>
    rename_i w ws c cs
    cases fuel with
    | zero => simp at enough
    | succ fuel =>
      obtain ⟨ch,others,rfl,other⟩ := charText_head head inside
      have read := nextCharVal_text head (ws ++ byte '"' :: more)
      rw [List.append_assoc,countChars]
      have not_end : textCh (ch :: others ++ (ws ++ byte '"' :: more)) ≠ byte '"' := other
      rw [if_neg not_end,read,Code.ok_bind]
      simp only [List.length_append,List.length_cons] at enough
      have later := @ih fuel (by omega)
      simp only [later,Code.ok_bind,Code.pure_eq,List.length_cons]

theorem readChars_quoted (quoted : Quoted w cs) (more : Text) : readChars cs.length (w ++ more) = .ok (cs,more) := by
  induction quoted with
  | nil => rfl
  | cons head inside tail ih =>
    rw [List.length_cons,readChars,List.append_assoc,nextCharVal_text head,Code.ok_bind]
    simp only [ih,Code.ok_bind,Code.pure_eq]

/-- The first pass finds the quote that ends a string, or there is an exception. -/
theorem countChars_cases (text : Text) (enough : text.length < fuel) :
    (∃ w cs more, text = w ++ byte '"' :: more ∧ Quoted w cs) ∨ countChars fuel text = .error .exception := by
  induction fuel generalizing text with
  | zero => simp at enough
  | succ fuel ih =>
    by_cases ends : textCh text = byte '"'
    · cases text with
      | nil => cases ends
      | cons ch text =>
        have same : ch = byte '"' := ends
        rw [same]
        exact .inl ⟨[],[],text,rfl,.nil⟩
    · rw [countChars,if_neg ends]
      rcases nextCharVal_cases text with ⟨w,c,rest,rfl,one⟩ | rfl | stop
      · have inside : w ≠ [byte '"'] := by
          rintro rfl
          exact ends rfl
        obtain ⟨ch,others,rfl,-⟩ := charText_head one inside
        simp only [List.length_append,List.length_cons] at enough
        rcases ih rest (by omega) with ⟨ws,cs,more,rfl,quoted⟩ | stop
        · exact .inl ⟨_,_,more,(List.append_assoc _ _ _).symm,.cons one inside quoted⟩
        · right
          simp only [nextCharVal_text one,Code.ok_bind,stop,Code.error_bind]
      · right
        have end_ : nextCharVal [byte '\\'] = .ok (0,[]) := rfl
        rw [end_,Code.ok_bind]
        rcases ih [] (by simp at enough ⊢; omega) with ⟨w,cs,more,same,-⟩ | stop
        · simp at same
        · simp only [stop,Code.error_bind]
      · right
        rw [stop,Code.error_bind]

end Strings

section Runs

variable {text a b x tail : Text} {kind next : UInt8 → Bool}

/-- A piece that is read before `b`: what is left begins with `b`, or `b` is empty and no less was read. -/
def Left (left b tail : Text) : Prop := left = b ++ tail ∨ (b = [] ∧ left.length ≤ tail.length)

theorem dropWhile_left (tail : Text) (first : ∀ ch ∈ a, kind ch) (apart : ∀ ch ∈ b.head?, kind ch = false) :
    Left ((a ++ (b ++ tail)).dropWhile kind) b tail := by
  rw [List.dropWhile_append_of_pos first]
  cases b with
  | nil => exact .inr ⟨rfl,(List.dropWhile_suffix kind).length_le⟩
  | cons ch b =>
    left
    have other := apart ch rfl
    rw [List.cons_append,List.dropWhile_cons_of_neg (by simp [other])]

theorem takeWhile_all (text : Text) : ∀ ch ∈ text.takeWhile kind, kind ch := by
  exact List.all_eq_true.mp List.all_takeWhile

end Runs

section Reals

variable {text fraction exponent suffix tail : Text}

/-- The text behind a fraction. -/
def dropFraction (text : Text) : Text := if textCh text = byte '.' then text.tail.dropWhile isDigit else text

/-- The text behind an exponent. -/
def dropExponent (text : Text) : Text :=
  if isE (textCh text) then (if isSign (textCh text.tail) then text.tail.tail else text.tail).dropWhile isDigit else text

def dropRealSuffix (text : Text) : Text := if isF (textCh text) ∨ isL (textCh text) then text.tail else text

@[simp] theorem textCh_cons (ch : UInt8) (text : Text) : textCh (ch :: text) = ch := rfl

variable {ch : UInt8}

theorem isE_iff : isE ch = true ↔ ch = byte 'E' ∨ ch = byte 'e' := decide_eq_true_iff

theorem isSign_iff : isSign ch = true ↔ ch = byte '-' ∨ ch = byte '+' := decide_eq_true_iff

theorem isF_iff : isF ch = true ↔ ch = byte 'f' ∨ ch = byte 'F' := decide_eq_true_iff

theorem strToDoubleEnd_eq (text : Text) : strToDoubleEnd text = dropExponent (dropFraction (text.dropWhile isDigit)) := by
  simp only [strToDoubleEnd,dropExponent,dropFraction,isE_iff,isSign_iff]

theorem parseFpNumber_eq (text : Text) :
    ∃ size flags, parseFpNumber text = (⟨.val,some ⟨.real,.real size⟩,flags⟩,dropRealSuffix (strToDoubleEnd text)) := by
  unfold parseFpNumber dropRealSuffix
  simp only [← isF_iff]
  by_cases f : isF (textCh (strToDoubleEnd text)) = true
  · exact ⟨4,{ noFlags with f := true },by simp only [if_pos f,if_pos (Or.inl f)]⟩
  · by_cases l : isL (textCh (strToDoubleEnd text)) = true
    · exact ⟨8,{ noFlags with l := true },by simp only [if_neg f,if_pos l,if_pos (Or.inr l)]⟩
    · have neither : ¬(isF (textCh (strToDoubleEnd text)) = true ∨ isL (textCh (strToDoubleEnd text)) = true) := by tauto
      exact ⟨8,noFlags,by simp only [if_neg f,if_neg l,if_neg neither]⟩

theorem dropFraction_dot (rest : Text) : dropFraction (byte '.' :: rest) = rest.dropWhile isDigit := by simp [dropFraction]

theorem dropFraction_other (other : textCh text ≠ byte '.') : dropFraction text = text := by rw [dropFraction,if_neg other]

theorem dropExponent_e (e : isE ch = true) (rest : Text) :
    dropExponent (ch :: rest) = (if isSign (textCh rest) then rest.tail else rest).dropWhile isDigit := by
  rw [dropExponent,textCh_cons,if_pos e]
  rfl

theorem dropExponent_other (other : isE (textCh text) = false) : dropExponent text = text := by simp [dropExponent,other]

theorem dropRealSuffix_ends (ends : isF ch = true ∨ isL ch = true) (rest : Text) : dropRealSuffix (ch :: rest) = rest := by
  rw [dropRealSuffix,textCh_cons,if_pos ends]
  rfl

theorem dropRealSuffix_other (f : isF (textCh text) = false) (l : isL (textCh text) = false) : dropRealSuffix text = text := by
  simp [dropRealSuffix,f,l]

theorem dropFraction_text (text : Text) : ∃ fraction, text = fraction ++ dropFraction text ∧ FractionText fraction ∧
    (textCh text = byte '.' → fraction ≠ []) := by
  by_cases dot : textCh text = byte '.'
  · cases text with
    | nil => exact absurd dot (by decide)
    | cons ch rest =>
      rw [textCh_cons] at dot
      rw [dot,dropFraction_dot]
      refine ⟨byte '.' :: rest.takeWhile isDigit,?_,.inr ⟨_,rfl,takeWhile_all rest⟩,fun _ => List.cons_ne_nil _ _⟩
      rw [List.cons_append,List.takeWhile_append_dropWhile]
  · exact ⟨[],by rw [dropFraction_other dot]; rfl,.inl rfl,fun other => absurd other dot⟩

theorem dropExponent_text (text : Text) : ∃ exponent, text = exponent ++ dropExponent text ∧ ExponentText exponent ∧
    (isE (textCh text) = true → exponent ≠ []) := by
  cases e : isE (textCh text) with
  | false => exact ⟨[],by rw [dropExponent_other e]; rfl,.inl rfl,fun other => by cases other⟩
  | true =>
    cases text with
    | nil => exact absurd e (by decide)
    | cons ch rest =>
      rw [textCh_cons] at e
      rw [dropExponent_e e]
      cases sign : isSign (textCh rest) with
      | false =>
        refine ⟨ch :: ([] ++ rest.takeWhile isDigit),?_,.inr ⟨ch,[],_,rfl,e,.inl rfl,takeWhile_all rest⟩,fun _ => List.cons_ne_nil _ _⟩
        simp [List.takeWhile_append_dropWhile]
      | true =>
        cases rest with
        | nil => exact absurd sign (by decide)
        | cons mark rest =>
          refine ⟨ch :: ([mark] ++ rest.takeWhile isDigit),?_,.inr ⟨ch,[mark],_,rfl,e,.inr ⟨mark,rfl,sign⟩,takeWhile_all rest⟩,
            fun _ => List.cons_ne_nil _ _⟩
          simp [List.takeWhile_append_dropWhile]

theorem dropRealSuffix_text (text : Text) : ∃ suffix, text = suffix ++ dropRealSuffix text ∧
    (suffix = [] ∨ ∃ ch, suffix = [ch] ∧ (isF ch ∨ isL ch)) ∧ (isF (textCh text) = true → ∃ ch ∈ suffix, isF ch) := by
  cases text with
  | nil => exact ⟨[],rfl,.inl rfl,fun f => absurd f (by decide)⟩
  | cons ch rest =>
    by_cases ends : isF ch = true ∨ isL ch = true
    · exact ⟨[ch],by rw [dropRealSuffix_ends ends]; rfl,.inr ⟨ch,rfl,ends⟩,fun f => ⟨ch,List.mem_singleton_self ch,f⟩⟩
    · have f : isF ch = false := by simpa using fun f => ends (.inl f)
      have l : isL ch = false := by simpa using fun l => ends (.inr l)
      refine ⟨[],by rw [@dropRealSuffix_other (ch :: rest) f l]; rfl,.inl rfl,fun other => ?_⟩
      rw [textCh_cons,f] at other
      cases other

/-- Behind the longest fraction there is what follows any fraction, unless nothing follows it. -/
theorem dropFraction_left (tail : Text) {b : Text} (part : FractionText fraction) (apart : ∀ ch ∈ b.head?, isDigit ch = false ∧ ch ≠ byte '.') :
    Left (dropFraction (fraction ++ (b ++ tail))) b tail := by
  rcases part with rfl | ⟨digits,rfl,all⟩
  · rw [List.nil_append]
    by_cases dot : textCh (b ++ tail) = byte '.'
    · cases b with
      | nil =>
        right
        refine ⟨rfl,?_⟩
        obtain ⟨fraction,same,-⟩ := dropFraction_text tail
        have := congrArg List.length same
        rw [List.length_append] at this
        rw [List.nil_append]
        omega
      | cons ch b => exact absurd dot (apart ch rfl).2
    · rw [dropFraction_other dot]
      exact .inl rfl
  · rw [List.cons_append,dropFraction_dot]
    exact dropWhile_left tail all fun ch head => (apart ch head).1

theorem dropExponent_length (text : Text) : (dropExponent text).length ≤ text.length := by
  obtain ⟨exponent,same,-⟩ := dropExponent_text text
  have := congrArg List.length same
  rw [List.length_append] at this
  omega

theorem dropRealSuffix_length (text : Text) : (dropRealSuffix text).length ≤ text.length := by
  obtain ⟨suffix,same,-⟩ := dropRealSuffix_text text
  have := congrArg List.length same
  rw [List.length_append] at this
  omega

theorem dropFraction_length (text : Text) : (dropFraction text).length ≤ text.length := by
  obtain ⟨fraction,same,-⟩ := dropFraction_text text
  have := congrArg List.length same
  rw [List.length_append] at this
  omega

theorem isE_apart (e : isE ch = true) : isDigit ch = false ∧ ch ≠ byte '.' ∧ isSign ch = false := by
  rcases isE_iff.mp e with rfl | rfl <;> decide

theorem isSign_apart (sign : isSign ch = true) : isDigit ch = false := by
  rcases isSign_iff.mp sign with rfl | rfl <;> decide

/-- What ends a real number goes on with no part of it. -/
theorem ends_apart (ends : isF ch = true ∨ isL ch = true) :
    isDigit ch = false ∧ ch ≠ byte '.' ∧ isE ch = false ∧ isSign ch = false := by
  rcases ends with f | l
  · rcases isF_iff.mp f with rfl | rfl <;> decide
  · simp only [isL,decide_eq_true_eq] at l
    rcases l with rfl | rfl <;> decide

theorem dropExponent_left (tail : Text) {b : Text} (power : ExponentText exponent) (apart : ∀ ch ∈ b.head?, isDigit ch = false ∧ isE ch = false ∧ isSign ch = false) :
    Left (dropExponent (exponent ++ (b ++ tail))) b tail := by
  rcases power with rfl | ⟨e,sign,digits,rfl,is_e,mark,all⟩
  · rw [List.nil_append]
    cases other : isE (textCh (b ++ tail)) with
    | false =>
      rw [dropExponent_other other]
      exact .inl rfl
    | true =>
      cases b with
      | nil => exact .inr ⟨rfl,dropExponent_length tail⟩
      | cons ch b =>
        have none_ := (apart ch rfl).2.1
        rw [List.cons_append,textCh_cons,none_] at other
        cases other
  · rw [List.cons_append,List.append_assoc,dropExponent_e is_e]
    rcases mark with rfl | ⟨ch,rfl,is_sign⟩
    · rw [List.nil_append]
      cases signed : isSign (textCh (digits ++ (b ++ tail))) with
      | false =>
        rw [if_neg (by decide)]
        exact dropWhile_left tail all fun ch head => (apart ch head).1
      | true =>
        -- The sign is behind the exponent, so that there are no digits.
        cases digits with
        | cons ch digits =>
          have digit := all ch List.mem_cons_self
          rw [List.cons_append,textCh_cons] at signed
          rw [isSign_apart signed] at digit
          cases digit
        | nil =>
          cases b with
          | nil =>
            right
            refine ⟨rfl,?_⟩
            rw [if_pos rfl]
            refine Nat.le_trans (List.dropWhile_suffix isDigit).length_le ?_
            simp
          | cons ch b =>
            have none_ := (apart ch rfl).2.2
            rw [List.nil_append,List.cons_append,textCh_cons,none_] at signed
            cases signed
    · have signed : isSign (textCh ([ch] ++ digits ++ (b ++ tail))) = true := is_sign
      rw [← List.append_assoc,if_pos signed]
      exact dropWhile_left tail all fun ch head => (apart ch head).1

theorem suffix_head (ends : suffix = [] ∨ ∃ ch, suffix = [ch] ∧ (isF ch ∨ isL ch)) :
    ∀ ch ∈ suffix.head?, isDigit ch = false ∧ ch ≠ byte '.' ∧ isE ch = false ∧ isSign ch = false := by
  intro ch head
  rcases ends with rfl | ⟨last,rfl,ends⟩
  · cases head
  · cases head
    exact ends_apart ends

theorem exponent_head (power : ExponentText exponent) (ends : suffix = [] ∨ ∃ ch, suffix = [ch] ∧ (isF ch ∨ isL ch)) :
    ∀ ch ∈ (exponent ++ suffix).head?, isDigit ch = false ∧ ch ≠ byte '.' := by
  intro ch head
  rcases power with rfl | ⟨e,sign,digits,rfl,is_e,-⟩
  · have apart := suffix_head ends ch head
    exact ⟨apart.1,apart.2.1⟩
  · cases head
    have apart := isE_apart is_e
    exact ⟨apart.1,apart.2.1⟩

theorem fraction_head (part : FractionText fraction) (power : ExponentText exponent)
    (ends : suffix = [] ∨ ∃ ch, suffix = [ch] ∧ (isF ch ∨ isL ch)) : ∀ ch ∈ (fraction ++ (exponent ++ suffix)).head?, isDigit ch = false := by
  intro ch head
  rcases part with rfl | ⟨digits,rfl,-⟩
  · exact (exponent_head power ends ch head).1
  · cases head
    decide

theorem dropRealSuffix_left (ends : suffix = [] ∨ ∃ ch, suffix = [ch] ∧ (isF ch ∨ isL ch)) : (dropRealSuffix (suffix ++ tail)).length ≤ tail.length := by
  rcases ends with rfl | ⟨ch,rfl,ends⟩
  · exact dropRealSuffix_length tail
  · rw [List.singleton_append,dropRealSuffix_ends ends]

/-- A real number at the beginning of a text is no longer than what is read. -/
theorem real_longest (tail : Text) {digits : Text} (all : ∀ ch ∈ digits, isDigit ch) (part : FractionText fraction) (power : ExponentText exponent)
    (ends : suffix = [] ∨ ∃ ch, suffix = [ch] ∧ (isF ch ∨ isL ch)) :
    (dropRealSuffix (strToDoubleEnd (digits ++ ((fraction ++ (exponent ++ suffix)) ++ tail)))).length ≤ tail.length := by
  rw [strToDoubleEnd_eq]
  rcases dropWhile_left tail all (fraction_head part power ends) with left | ⟨-,short⟩
  · rw [left,List.append_assoc]
    rcases dropFraction_left tail part (exponent_head power ends) with left | ⟨-,short⟩
    · rw [left,List.append_assoc]
      rcases dropExponent_left tail power (fun ch head => ⟨(suffix_head ends ch head).1,(suffix_head ends ch head).2.2⟩) with left | ⟨-,short⟩
      · rw [left]
        exact dropRealSuffix_left ends
      · exact Nat.le_trans (dropRealSuffix_length _) short
    · exact Nat.le_trans (dropRealSuffix_length _) (Nat.le_trans (dropExponent_length _) short)
  · exact Nat.le_trans (dropRealSuffix_length _) (Nat.le_trans (dropExponent_length _) (Nat.le_trans (dropFraction_length _) short))

theorem isReal_iff (text : Text) : isReal text = true ↔ textCh text = byte '.' ∨ isE (textCh text) = true ∨ isF (textCh text) = true := by
  rw [isE_iff,isF_iff]
  simp only [isReal,decide_eq_true_eq]
  tauto

theorem digits_behind {first : UInt8} {digits : Text} (start : isDigit first = true) (all : ∀ ch ∈ digits, isDigit ch)
    (stops : ∀ ch ∈ text.head?, isDigit ch = false) : (first :: (digits ++ text)).dropWhile isDigit = text := by
  have run : ∀ ch ∈ first :: digits, isDigit ch := List.forall_mem_cons.mpr ⟨start,all⟩
  rw [← List.cons_append,List.dropWhile_append_of_pos run]
  cases text with
  | nil => rfl
  | cons ch text => rw [List.dropWhile_cons_of_neg (by simp [stops ch rfl])]

/-- What is read as a real number is one. -/
theorem real_read {first : UInt8} {digits text : Text} (start : isDigit first = true) (all : ∀ ch ∈ digits, isDigit ch)
    (zero : first = byte '0' → digits = []) (stops : ∀ ch ∈ text.head?, isDigit ch = false) (real : isReal text = true) :
    ∃ w, first :: (digits ++ text) = w ++ dropRealSuffix (strToDoubleEnd (first :: (digits ++ text))) ∧ RealText w := by
  rw [strToDoubleEnd_eq,digits_behind start all stops]
  obtain ⟨fraction,same_fraction,part,dot⟩ := dropFraction_text text
  obtain ⟨exponent,same_exponent,power,e⟩ := dropExponent_text (dropFraction text)
  obtain ⟨suffix,same_suffix,ends,f⟩ := dropRealSuffix_text (dropExponent (dropFraction text))
  refine ⟨first :: (digits ++ (fraction ++ (exponent ++ suffix))),?_,.mk first digits fraction exponent suffix start all zero part power ends ?_⟩
  · rw [List.cons_append,List.append_assoc,List.append_assoc,List.append_assoc,← same_suffix,← same_exponent,← same_fraction]
  · rcases (isReal_iff text).mp real with is_dot | is_e | is_f
    · exact .inl (dot is_dot)
    · by_cases is_dot : textCh text = byte '.'
      · exact .inl (dot is_dot)
      · rw [dropFraction_other is_dot] at e
        exact .inr (.inl (e is_e))
    · by_cases is_dot : textCh text = byte '.'
      · exact .inl (dot is_dot)
      · cases is_e : isE (textCh text) with
        | true =>
          rw [dropFraction_other is_dot] at e
          exact .inr (.inl (e is_e))
        | false =>
          rw [dropFraction_other is_dot,dropExponent_other is_e] at f
          exact .inr (.inr (f is_f))

end Reals

section Numbers

variable {text more digits suffix tail w rest : Text} {token : Token} {ch : UInt8} {fuel n : Nat}

/-- What one call does when no spaces are left. -/
def Settles (text : Text) (result : Code (Token × Text)) : Prop :=
  (result = .error .exception ∧ Refused text) ∨ ∃ token rest, result = .ok (token,rest) ∧ Longest text token rest

/-- A lexeme is the longest when no other one leaves less. -/
theorem longest_of (same : text = w ++ rest) (lexeme : Lexeme w token)
    (least : ∀ other token tail, Lexeme other token → text = other ++ tail → rest.length ≤ tail.length) : Longest text token rest := by
  refine ⟨w,same,lexeme,?_⟩
  rintro other token other_lexeme ⟨tail,other_same⟩
  have short := least other token tail other_lexeme other_same.symm
  have lengths := congrArg List.length (same.symm.trans other_same.symm)
  rw [List.length_append,List.length_append] at lengths
  omega

def isLU (ch : UInt8) : Bool := isL ch || isU ch

theorem readSuffixes_eq (flags : Flags) (text : Text) : ∃ after, readSuffixes flags text = (after,text.dropWhile isLU) := by
  induction text generalizing flags with
  | nil => exact ⟨flags,rfl⟩
  | cons ch text ih =>
    rw [readSuffixes]
    by_cases l : isL ch = true
    · rw [if_pos l,List.dropWhile_cons_of_pos (by simp [isLU,l])]
      exact ih _
    · by_cases u : isU ch = true
      · rw [if_neg l,if_pos u,List.dropWhile_cons_of_pos (by simp [isLU,u])]
        exact ih _
      · rw [if_neg l,if_neg u,List.dropWhile_cons_of_neg (by simp [isLU,l,u])]
        exact ⟨flags,rfl⟩

theorem digitsValue_less {base start : Nat} (small : start < 2 ^ 64) (digits : Text) : digitsValue base start digits < 2 ^ 64 := by
  induction digits generalizing start with
  | nil => exact small
  | cons ch digits ih => exact ih (Nat.mod_lt _ (by decide))

theorem isLU_iff : isLU ch = true ↔ isL ch ∨ isU ch := by simp [isLU]

theorem isLU_apart (lu : isLU ch = true) :
    isHex ch = false ∧ ch ≠ byte '.' ∧ isE ch = false ∧ isF ch = false ∧ ch ≠ byte 'x' := by
  have stops := suffix_stops (isLU_iff.mp lu)
  refine ⟨stops.hex,stops.real.1,?_,?_,stops.mark⟩
  · cases e : isE ch with
    | false => rfl
    | true => rcases isE_iff.mp e with rfl | rfl <;> exact absurd lu (by decide)
  · cases f : isF ch with
    | false => rfl
    | true => rcases isF_iff.mp f with rfl | rfl <;> exact absurd lu (by decide)

/-- Suffixes behind digits are read as far as they go. -/
theorem suffixes_longest {kind : UInt8 → Bool} (all : ∀ ch ∈ digits, kind ch) (ends : ∀ ch ∈ suffix, isL ch ∨ isU ch)
    (apart : ∀ ch, isLU ch = true → kind ch = false) :
    (((digits ++ (suffix ++ tail)).dropWhile kind).dropWhile isLU).length ≤ tail.length := by
  have run : ∀ ch ∈ suffix, isLU ch = true := fun ch mem => isLU_iff.mpr (ends ch mem)
  have heads : ∀ ch ∈ suffix.head?, kind ch = false := fun ch head => apart ch (run ch (List.mem_of_mem_head? head))
  rcases dropWhile_left tail all heads with left | ⟨-,short⟩
  · rw [left,List.dropWhile_append_of_pos run]
    exact (List.dropWhile_suffix isLU).length_le
  · exact Nat.le_trans (List.dropWhile_suffix isLU).length_le short

theorem isReal_suffix (lu : isLU ch = true) : isReal (ch :: text) = false := by
  have apart := isLU_apart lu
  cases real : isReal (ch :: text) with
  | false => rfl
  | true =>
    rw [isReal_iff,textCh_cons,apart.2.2.1,apart.2.2.2.1] at real
    rcases real with dot | e | f
    · exact absurd dot apart.2.1
    · cases e
    · cases f

theorem symbols_start : ∀ entry ∈ symbols, isDigit (textCh entry.1) = false := by decide

theorem textCh_head (head : text.head? = some ch) : textCh text = ch := by
  rw [textCh,List.headD_eq_head?_getD,head]
  rfl

/-- What begins with a digit is a number. -/
theorem lexeme_digit (lexeme : Lexeme w token) (head : w.head? = some ch) (digit : isDigit ch = true) : (∃ n, IntegerText w n) ∨ RealText w := by
  cases lexeme with
  | symbol entry listed => exact absurd (symbols_start entry listed) (by simp [textCh_head head,digit])
  | char l w c one typeClass size =>
    cases l <;> cases head <;> exact absurd digit (by decide)
  | string l w cs quoted =>
    cases l <;> cases head <;> exact absurd digit (by decide)
  | quotedName w cs quoted =>
    cases head
    exact absurd digit (by decide)
  | id w inside =>
    cases head
    exact absurd digit (by decide)
  | name _ nonempty start all => exact absurd (start ch head) (by simp [digit])
  | integer _ n number typeClass size flags => exact .inl ⟨n,number⟩
  | real _ number size flags => exact .inr number

theorem takeWhile_stops (kind : UInt8 → Bool) (text : Text) : ∀ ch ∈ (text.dropWhile kind).head?, kind ch = false := by
  intro ch head
  have stops := List.head?_dropWhile_not kind text
  rw [head] at stops
  simpa using stops

theorem lexeme_nonempty (lexeme : Lexeme w token) : w ≠ [] := by
  have listed_nonempty : ∀ entry ∈ symbols, entry.1 ≠ [] := by decide
  cases lexeme with
  | symbol entry listed => exact listed_nonempty entry listed
  | char l => cases l <;> exact List.cons_ne_nil _ _
  | string l => cases l <;> exact List.cons_ne_nil _ _
  | quotedName => exact List.cons_ne_nil _ _
  | id => exact List.cons_ne_nil _ _
  | name _ nonempty => exact nonempty
  | integer _ n number => cases number <;> exact List.cons_ne_nil _ _
  | real _ number =>
    cases number
    exact List.cons_ne_nil _ _

/-- Any lexeme of a text begins with its first character. -/
theorem lexeme_head {other : Text} (lexeme : Lexeme other token) (same : ch :: text = other ++ tail) : ∃ others, other = ch :: others ∧ text = others ++ tail := by
  cases other with
  | nil => exact absurd rfl (lexeme_nonempty lexeme)
  | cons first others =>
    rw [List.cons_append] at same
    cases same
    exact ⟨others,rfl,rfl⟩

/-- Digits and suffixes before a text that goes on as a real number: there are no suffixes, and no digits are left. -/
theorem integer_short (tail : Text) (all : ∀ ch ∈ digits, isDigit ch) (ends : ∀ ch ∈ suffix, isL ch ∨ isU ch)
    (real : isReal ((digits ++ (suffix ++ tail)).dropWhile isDigit) = true) : ((digits ++ (suffix ++ tail)).dropWhile isDigit).length ≤ tail.length := by
  cases suffix with
  | nil => rw [List.nil_append,List.dropWhile_append_of_pos all]; exact (List.dropWhile_suffix isDigit).length_le
  | cons ch suffix =>
    have lu := isLU_iff.mpr (ends ch List.mem_cons_self)
    have digit : isDigit ch = false := by
      cases digit : isDigit ch with
      | false => rfl
      | true => exact absurd (isLU_apart lu).1 (by simp [isDigit_hex digit])
    rw [List.dropWhile_append_of_pos all,List.cons_append,List.dropWhile_cons_of_neg (by simp [digit]),isReal_suffix lu] at real
    cases real

/-- A real number takes all of the digits before it goes on. -/
theorem settle_real {first : UInt8} (start : isDigit first = true) (all : ∀ ch ∈ digits, isDigit ch) (zero : first = byte '0' → digits = [])
    (stops : ∀ ch ∈ text.head?, isDigit ch = false) (real : isReal text = true) :
    Settles (first :: (digits ++ text)) (pure (parseFpNumber (first :: (digits ++ text)))) := by
  obtain ⟨size,flags,read⟩ := parseFpNumber_eq (first :: (digits ++ text))
  obtain ⟨w,same,number⟩ := real_read start all zero stops real
  have behind := digits_behind start all stops
  have least : (dropRealSuffix (strToDoubleEnd (first :: (digits ++ text)))).length ≤ text.length := by
    rw [strToDoubleEnd_eq,behind]
    exact Nat.le_trans (dropRealSuffix_length _) (Nat.le_trans (dropExponent_length _) (dropFraction_length _))
  refine .inr ⟨_,_,by rw [read]; rfl,longest_of same (.real w number size flags) fun other token tail lexeme other_same => ?_⟩
  obtain ⟨others,rfl,rest_same⟩ := lexeme_head lexeme other_same
  -- A text with the digits and suffixes of an integer at its beginning.
  have integer : ∀ ds suffix, others = ds ++ suffix → (∀ ch ∈ ds, isDigit ch) → (∀ ch ∈ suffix, isL ch ∨ isU ch) → text.length ≤ tail.length := by
    rintro ds suffix rfl all_ds ends
    rw [List.append_assoc] at rest_same
    have dropped : (ds ++ (suffix ++ tail)).dropWhile isDigit = text := by
      rw [← rest_same]
      rw [List.dropWhile_cons_of_pos start] at behind
      exact behind
    have short := integer_short tail all_ds ends (by rw [dropped]; exact real)
    rwa [dropped] at short
  rcases lexeme_digit lexeme rfl start with ⟨n,number⟩ | number
  · cases number with
    | decimal first ds suffix first_digit all_ds ends => exact Nat.le_trans least (integer ds suffix rfl all_ds ends)
    | octal ds suffix all_ds ends => exact Nat.le_trans least (integer ds suffix rfl (fun ch mem => isOctal_digit (all_ds ch mem)) ends)
    | hex ds suffix all_ds ends =>
      have none_ := zero rfl
      rw [none_,List.nil_append] at rest_same
      rw [rest_same] at real
      cases real
  · cases number with
    | mk first ds fraction exponent suffix first_digit all_ds other_zero part power ends goes_on =>
      have run : ∀ ch ∈ first :: ds, isDigit ch := List.forall_mem_cons.mpr ⟨start,all_ds⟩
      have longest := real_longest tail run part power ends
      rw [rest_same,List.append_assoc]
      exact longest

theorem real_goes_on (tail : Text) {fraction exponent : Text} (part : FractionText fraction) (power : ExponentText exponent)
    (ends : suffix = [] ∨ ∃ ch, suffix = [ch] ∧ (isF ch ∨ isL ch)) (goes_on : fraction ≠ [] ∨ exponent ≠ [] ∨ ∃ ch ∈ suffix, isF ch) :
    isReal ((fraction ++ (exponent ++ suffix)) ++ tail) = true := by
  rw [isReal_iff]
  rcases part with rfl | ⟨ds,rfl,-⟩
  · rcases power with rfl | ⟨e,sign,ds,rfl,is_e,-⟩
    · rcases goes_on with none_ | none_ | ⟨ch,mem,f⟩
      · exact absurd rfl none_
      · exact absurd rfl none_
      · rcases ends with rfl | ⟨last,rfl,-⟩
        · cases mem
        · rw [List.mem_singleton.mp mem] at f
          exact .inr (.inr f)
    · exact .inr (.inl is_e)
  · exact .inl rfl

/-- No real number begins where the digits are not followed by what it goes on with. -/
theorem real_refused {first : UInt8} {others : Text} (number : RealText (first :: others))
    (plain : isReal ((others ++ tail).dropWhile isDigit) = false) : False := by
  cases number with
  | mk first ds fraction exponent suffix start all zero part power ends goes_on =>
    rw [List.append_assoc] at plain
    have real := real_goes_on tail part power ends goes_on
    rcases dropWhile_left tail all (fraction_head part power ends) with left | ⟨none_,-⟩
    · rw [left,real] at plain
      cases plain
    · simp only [List.append_eq_nil_iff] at none_
      obtain ⟨rfl,rfl,rfl⟩ := none_
      rcases goes_on with other | other | ⟨ch,mem,-⟩
      · exact other rfl
      · exact other rfl
      · cases mem

theorem zero_refused {others : Text} (number : RealText (byte '0' :: others)) (plain : isReal (others ++ tail) = false) : False := by
  cases number with
  | mk first ds fraction exponent suffix start all zero part power ends goes_on =>
    rw [zero rfl,List.nil_append,real_goes_on tail part power ends goes_on] at plain
    cases plain

/-- The digits and suffixes of an integer as they are read. -/
theorem integer_split (kind : UInt8 → Bool) (text : Text) :
    text = (text.takeWhile kind ++ (text.dropWhile kind).takeWhile isLU) ++ (text.dropWhile kind).dropWhile isLU := by
  rw [List.append_assoc,List.takeWhile_append_dropWhile,List.takeWhile_append_dropWhile]

theorem takeWhile_suffix (text : Text) : ∀ ch ∈ text.takeWhile isLU, isL ch ∨ isU ch := fun ch mem => isLU_iff.mp (takeWhile_all text ch mem)

theorem isLU_digit (ch : UInt8) (lu : isLU ch = true) : isDigit ch = false := by
  cases digit : isDigit ch with
  | false => rfl
  | true => exact absurd (isLU_apart lu).1 (by simp [isDigit_hex digit])

theorem isLU_octal (ch : UInt8) (lu : isLU ch = true) : isOctal ch = false := by
  cases octal : isOctal ch with
  | false => rfl
  | true => exact absurd (isLU_digit ch lu) (by simp [isOctal_digit octal])

theorem settle_decimal (digit : isDigit ch = true) (nonzero : ch ≠ byte '0') (more : Text) : Settles (ch :: more) (parseDecimal ch more) := by
  cases real : isReal (more.dropWhile isDigit) with
  | true =>
    have settled := settle_real digit (takeWhile_all more) (fun zero => absurd zero nonzero) (takeWhile_stops isDigit more) real
    rw [List.takeWhile_append_dropWhile] at settled
    rwa [parseDecimal,if_pos real]
  | false =>
    obtain ⟨flags,suffixes⟩ := readSuffixes_eq noFlags (more.dropWhile isDigit)
    have small : digitsValue 10 (hexValue ch) (more.takeWhile isDigit) < 2 ^ 64 := by
      refine digitsValue_less ?_ _
      have := hexValue_less (isDigit_hex digit)
      omega
    have fits : ∀ size, (if flags.u then maxCardinal else maxInteger) size < 2 ^ (8 * size) := by
      intro size
      split
      · exact maxCardinal_less size
      · exact maxInteger_less size
    have read : parseDecimal ch more = .ok (⟨.val,some ⟨if flags.u then .cardinal else .integer,
        .number (storedSize (if flags.u then maxCardinal else maxInteger) (digitsValue 10 (hexValue ch) (more.takeWhile isDigit)))
          (digitsValue 10 (hexValue ch) (more.takeWhile isDigit))⟩,flags⟩,(more.dropWhile isDigit).dropWhile isLU) := by
      simp only [parseDecimal,real,Bool.false_eq_true,if_false,suffixes,setIntValue_stored small fits,Code.ok_bind,Code.pure_eq]
    have same : ch :: more = (ch :: (more.takeWhile isDigit ++ (more.dropWhile isDigit).takeWhile isLU)) ++ (more.dropWhile isDigit).dropWhile isLU := by
      rw [List.cons_append,← integer_split]
    refine .inr ⟨_,_,read,longest_of same (.integer _ _ (.decimal ch _ _ ⟨digit,nonzero⟩ (takeWhile_all more) (takeWhile_suffix _)) _ _ _) ?_⟩
    intro other token tail lexeme other_same
    obtain ⟨others,rfl,rest_same⟩ := lexeme_head lexeme other_same
    rcases lexeme_digit lexeme rfl digit with ⟨n,number⟩ | number
    · cases number with
      | decimal first ds suffix start all ends =>
        rw [rest_same,List.append_assoc]
        exact suffixes_longest all ends isLU_digit
      | octal => exact absurd rfl nonzero
      | hex => exact absurd rfl nonzero
    · rw [rest_same] at real
      exact (real_refused number real).elim

theorem settle_zero (more : Text) : Settles (byte '0' :: more) (parseZero more) := by
  have digit : isDigit (byte '0') = true := by decide
  cases real : isReal more with
  | true =>
    have stops : ∀ ch ∈ more.head?, isDigit ch = false := by
      intro ch head
      cases more with
      | nil => cases head
      | cons first more =>
        cases head
        rcases (isReal_iff _).mp real with dot | e | f
        · rw [textCh_cons] at dot
          rw [dot]
          decide
        · exact (isE_apart e).1
        · exact (ends_apart (.inl f)).1
    have settled := @settle_real more [] (byte '0') digit (by simp) (fun _ => rfl) stops real
    rwa [parseZero,if_pos real]
  | false =>
    by_cases hex : textCh more = byte 'x'
    · cases more with
      | nil => exact absurd hex (by decide)
      | cons x more =>
        rw [textCh_cons] at hex
        subst hex
        obtain ⟨flags,suffixes⟩ := readSuffixes_eq { noFlags with x := true } (more.dropWhile isHex)
        have small : digitsValue 16 0 (more.takeWhile isHex) < 2 ^ 64 := digitsValue_less (by decide) _
        have read : ∃ typeClass size, parseZero (byte 'x' :: more) =
            .ok (⟨.val,some ⟨typeClass,.number size (digitsValue 16 0 (more.takeWhile isHex))⟩,flags⟩,(more.dropWhile isHex).dropWhile isLU) := by
          refine ⟨.cardinal,storedSize maxCardinal (digitsValue 16 0 (more.takeWhile isHex)),?_⟩
          simp only [parseZero,real,Bool.false_eq_true,if_false,textCh_cons,if_true,List.tail_cons,setIntValue_stored small maxCardinal_less,
            Code.ok_bind,true_or,decide_true,suffixes,Code.pure_eq]
        obtain ⟨typeClass,size,read⟩ := read
        have same : byte '0' :: byte 'x' :: more =
            (byte '0' :: byte 'x' :: (more.takeWhile isHex ++ (more.dropWhile isHex).takeWhile isLU)) ++ (more.dropWhile isHex).dropWhile isLU := by
          rw [List.cons_append,List.cons_append,← integer_split]
        refine .inr ⟨_,_,read,longest_of same (.integer _ _ (.hex _ _ (takeWhile_all more) (takeWhile_suffix _)) _ _ _) ?_⟩
        intro other token tail lexeme other_same
        obtain ⟨others,rfl,rest_same⟩ := lexeme_head lexeme other_same
        rcases lexeme_digit lexeme rfl digit with ⟨n,number⟩ | number
        · cases number with
          | decimal first ds suffix start => exact absurd rfl start.2
          | octal ds suffix all ends =>
            -- Neither an octal digit nor a suffix can be the x.
            have short : ((more.dropWhile isHex).dropWhile isLU).length ≤ (byte 'x' :: more).length := by
              have := (List.dropWhile_suffix (l := more.dropWhile isHex) isLU).length_le
              have := (List.dropWhile_suffix (l := more) isHex).length_le
              rw [List.length_cons]
              omega
            cases ds with
            | cons d ds =>
              rw [List.cons_append,List.cons_append] at rest_same
              cases rest_same
              exact absurd (all (byte 'x') List.mem_cons_self) (by decide)
            | nil =>
              cases suffix with
              | cons d suffix =>
                rw [List.nil_append,List.cons_append] at rest_same
                cases rest_same
                exact absurd (ends (byte 'x') List.mem_cons_self) (by decide)
              | nil =>
                rw [List.nil_append,List.nil_append] at rest_same
                rwa [← rest_same]
          | hex ds suffix all ends =>
            rw [List.cons_append] at rest_same
            cases rest_same
            rw [List.append_assoc]
            exact suffixes_longest all ends fun ch lu => (isLU_apart lu).1
        · rw [rest_same] at real
          exact (zero_refused number real).elim
    · have read : ∃ typeClass size flags, parseZero more =
          .ok (⟨.val,some ⟨typeClass,.number size (digitsValue 8 0 (more.takeWhile isOctal))⟩,flags⟩,(more.dropWhile isOctal).dropWhile isLU) := by
        obtain ⟨flags,suffixes⟩ := readSuffixes_eq { noFlags with x := decide (more.takeWhile isOctal ≠ []) } (more.dropWhile isOctal)
        have small : digitsValue 8 0 (more.takeWhile isOctal) < 2 ^ 64 := digitsValue_less (by decide) _
        refine ⟨if more.takeWhile isOctal ≠ [] then .cardinal else .integer,storedSize maxCardinal (digitsValue 8 0 (more.takeWhile isOctal)),flags,?_⟩
        simp only [parseZero,real,Bool.false_eq_true,if_false,hex,setIntValue_stored small maxCardinal_less,
          Code.ok_bind,false_or,suffixes,Code.pure_eq]
      obtain ⟨typeClass,size,flags,read⟩ := read
      have same : byte '0' :: more =
          (byte '0' :: (more.takeWhile isOctal ++ (more.dropWhile isOctal).takeWhile isLU)) ++ (more.dropWhile isOctal).dropWhile isLU := by
        rw [List.cons_append,← integer_split]
      refine .inr ⟨_,_,read,longest_of same (.integer _ _ (.octal _ _ (takeWhile_all more) (takeWhile_suffix _)) _ _ _) ?_⟩
      intro other token tail lexeme other_same
      obtain ⟨others,rfl,rest_same⟩ := lexeme_head lexeme other_same
      rcases lexeme_digit lexeme rfl digit with ⟨n,number⟩ | number
      · cases number with
        | decimal first ds suffix start => exact absurd rfl start.2
        | octal ds suffix all ends =>
          rw [rest_same,List.append_assoc]
          exact suffixes_longest all ends isLU_octal
        | hex ds suffix all ends =>
          rw [rest_same] at hex
          exact absurd rfl hex
      · rw [rest_same] at real
        exact (zero_refused number real).elim

end Numbers

end Tcf.Expressions
