import Tcf.Json

/-! A JSON string reads back as what was written, by all three readers. -/
namespace Tcf.Json

open Framing

/-- What the writers make of a byte. -/
def escape (ch : UInt8) : List UInt8 := if charEscaping ch then escapeSeq ch else [ch]

/-- The text of a string. -/
def quoted (str : List UInt8) : List UInt8 := quote :: str.flatMap escape ++ [quote]

def escapes : List UInt8 := (List.range 32).map UInt8.ofNat ++ [quote,backslash,0x7f]

theorem escapes_complete (ch : UInt8) (special : charEscaping ch = true) : ch ∈ escapes := by
  have all : ∀ n < 256, charEscaping (UInt8.ofNat n) = true → UInt8.ofNat n ∈ escapes := by decide +kernel
  have here := all ch.toNat ch.toNat_lt
  rw [UInt8.ofNat_toNat] at here
  exact here special

theorem plain_bytes {ch : UInt8} (plain : charEscaping ch = false) : ch ≠ ESC ∧ ch ≠ quote ∧ ch ≠ backslash ∧ ch ≠ 0 := by
  refine ⟨?_,?_,?_,?_⟩ <;> rintro rfl <;> exact absurd plain (by decide)

/-- Each escape sequence reads back as its byte. -/
theorem readEscChar_escapeSeq {ch : UInt8} (special : charEscaping ch = true) :
    ∃ tail, escapeSeq ch = backslash :: tail ∧
      ∀ rest, readEscChar (tail.map Item.byte ++ rest) = .ok ([ch],rest) := by
  have member := escapes_complete ch special
  simp only [escapes,List.range,List.range.loop,List.map_cons,List.map_nil,List.cons_append,List.nil_append,
    List.mem_cons,List.not_mem_nil,or_false] at member
  rcases member with rfl | rfl | rfl | rfl | rfl | rfl | rfl | rfl | rfl | rfl | rfl | rfl | rfl | rfl | rfl |
    rfl | rfl | rfl | rfl | rfl | rfl | rfl | rfl | rfl | rfl | rfl | rfl | rfl | rfl | rfl | rfl | rfl |
    rfl | rfl | rfl <;> exact ⟨_,rfl,fun _ => rfl⟩

theorem escape_plain {run : List UInt8} (plain : ∀ ch ∈ run, charEscaping ch = false) : run.flatMap escape = run := by
  induction run with
  | nil => rfl
  | cons ch rest ih =>
    obtain ⟨first,later⟩ := List.forall_mem_cons.mp plain
    simp [escape,first,ih later]

/-- A run and what follows it. -/
theorem plainRun_split (str : List UInt8) :
    str = plainRun str ++ str.drop (plainRun str).length ∧ (∀ ch ∈ plainRun str, charEscaping ch = false) ∧
      ∀ ch rest, str.drop (plainRun str).length = ch :: rest → charEscaping ch = true := by
  have front : plainRun str <+: str := List.takeWhile_prefix _
  refine ⟨(List.prefix_iff_eq_append.mp front).symm,?_,?_⟩
  · intro ch member
    simpa using List.all_eq_true.mp List.all_takeWhile ch member
  · intro ch rest drop
    have stopped := List.head?_dropWhile_not (fun ch => !charEscaping ch) str
    have whole := List.takeWhile_append_dropWhile (p := fun ch => !charEscaping ch) (l := str)
    have tail : str.drop (plainRun str).length = str.dropWhile fun ch => !charEscaping ch := by
      have dropped := @List.drop_left _ (plainRun str) (str.dropWhile fun ch => !charEscaping ch)
      rwa [plainRun,whole] at dropped
    rw [← tail,drop] at stopped
    simpa using stopped

/-- The NUL behind a string is no part of a run. -/
theorem plainRun_nul (str junk : List UInt8) : plainRun (str ++ 0 :: junk) = plainRun str := by
  induction str with
  | nil => rfl
  | cons ch rest ih =>
    unfold plainRun at ih ⊢
    rw [List.cons_append,List.takeWhile_cons,List.takeWhile_cons,ih]

variable {fuel : Nat} {str : List UInt8}

section Writers

variable {σ : Type} {S : OutStream σ}

variable {s : σ} {items : List Item}

theorem writeRun_holds (h : S.Holds s items) {run : List UInt8}
    (plain : ∀ ch ∈ run, charEscaping ch = false) (short : run.length < 2^32) :
    ∃ next, writeRun S s run = .ok next ∧ S.Holds next (items ++ run.map .byte) := by
  by_cases empty : run = []
  · subst empty
    exact ⟨s,rfl,by simpa using h⟩
  · have len : unsigned run.length = run.length := Nat.mod_eq_of_lt short
    have free : ESC ∉ run := fun member => (plain_bytes (plain ESC member)).1 rfl
    rw [writeRun,if_neg empty]
    simp only [len,List.take_length]
    by_cases fits : run.length ≤ S.room s
    · rw [if_pos fits]
      exact ⟨_,rfl,S.copy_holds h run free fits⟩
    · rw [if_neg fits]
      exact S.writeBlock_holds h run

theorem writeLen_holds (h : S.Holds s items)
    (enough : str.length < fuel) (short : str.length < 2^32) :
    ∃ next, writeLen S fuel s str = .ok next ∧ S.Holds next (items ++ (str.flatMap escape).map .byte) := by
  induction fuel generalizing s items str with
  | zero => omega
  | succ fuel ih =>
    obtain ⟨split,plain,special⟩ := plainRun_split str
    have count := congrArg List.length split
    rw [List.length_append] at count
    obtain ⟨middle,run,holds⟩ := writeRun_holds h plain (by omega)
    simp only [writeLen,run,Code.ok_bind]
    cases drop : str.drop (plainRun str).length with
    | nil =>
      rw [drop,List.append_nil] at split
      refine ⟨middle,rfl,?_⟩
      rw [split,escape_plain plain]
      exact holds
    | cons ch rest =>
      obtain ⟨middle',escaped,holds'⟩ := S.writeBytes_holds (escapeSeq ch) holds
      rw [drop] at count split
      rw [List.length_cons] at count
      have shorter : rest.length < fuel := by omega
      have short' : rest.length < 2^32 := by omega
      obtain ⟨next,later,result⟩ := ih holds' shorter short'
      simp only [escaped,Code.ok_bind]
      refine ⟨next,later,?_⟩
      rw [split,List.flatMap_append,escape_plain plain,List.flatMap_cons,escape,if_pos (special ch rest drop)]
      simpa using result

theorem writeZ_holds {junk : List UInt8} (h : S.Holds s items)
    (enough : str.length < fuel) (short : str.length < 2^32) (nulFree : 0 ∉ str) :
    ∃ next, writeZ S fuel s (str ++ 0 :: junk) = .ok next ∧
      S.Holds next (items ++ (str.flatMap escape).map .byte) := by
  induction fuel generalizing s items str with
  | zero => omega
  | succ fuel ih =>
    obtain ⟨split,plain,special⟩ := plainRun_split str
    have count := congrArg List.length split
    rw [List.length_append] at count
    have same := plainRun_nul str junk
    obtain ⟨middle,run,holds⟩ := writeRun_holds h plain (by omega)
    have drop_ : (str ++ 0 :: junk).drop (plainRun str).length = str.drop (plainRun str).length ++ 0 :: junk :=
      List.drop_append_of_le_length (by omega)
    simp only [writeZ,same,run,Code.ok_bind,drop_]
    cases drop : str.drop (plainRun str).length with
    | nil =>
      rw [drop,List.append_nil] at split
      refine ⟨middle,rfl,?_⟩
      rw [split,escape_plain plain]
      exact holds
    | cons ch rest =>
      obtain ⟨middle',escaped,holds'⟩ := S.writeBytes_holds (escapeSeq ch) holds
      rw [drop] at count split
      rw [List.length_cons] at count
      have nonzero : ch ≠ 0 := by
        rintro rfl
        exact nulFree (split ▸ List.mem_append_right _ List.mem_cons_self)
      have free : 0 ∉ rest := fun member =>
        nulFree (split ▸ List.mem_append_right _ (List.mem_cons_of_mem _ member))
      have shorter : rest.length < fuel := by omega
      have short' : rest.length < 2^32 := by omega
      obtain ⟨next,later,result⟩ := ih holds' shorter short' free
      simp only [List.cons_append,if_neg nonzero,escaped,Code.ok_bind]
      refine ⟨next,later,?_⟩
      rw [split,List.flatMap_append,escape_plain plain,List.flatMap_cons,escape,if_pos (special ch rest drop)]
      simpa using result

theorem jsonWriteStringLen_holds (h : S.Holds s items)
    (short : str.length < 2^32) :
    ∃ next, jsonWriteStringLen S s str = .ok next ∧ S.Holds next (items ++ (quoted str).map .byte) := by
  obtain ⟨one,first,holds⟩ := S.writeByte_holds h quote
  obtain ⟨two,second,holds'⟩ := writeLen_holds holds (Nat.lt_succ_self _) short
  obtain ⟨three,third,result⟩ := S.writeByte_holds holds' quote
  refine ⟨three,by simp [jsonWriteStringLen,first,second,third],?_⟩
  simpa [quoted] using result

theorem jsonWriteString_holds (h : S.Holds s items)
    (short : str.length < 2^32) (nulFree : 0 ∉ str) (junk : List UInt8) :
    ∃ next, jsonWriteString S s (str ++ 0 :: junk) = .ok next ∧
      S.Holds next (items ++ (quoted str).map .byte) := by
  obtain ⟨one,first,holds⟩ := S.writeByte_holds h quote
  have enough : str.length < (str ++ 0 :: junk).length + 1 := by
    rw [List.length_append]
    omega
  obtain ⟨two,second,holds'⟩ := @writeZ_holds _ str σ S one _ junk holds enough short nulFree
  obtain ⟨three,third,result⟩ := S.writeByte_holds holds' quote
  refine ⟨three,by simp only [jsonWriteString,first,second,third,Code.ok_bind],?_⟩
  simpa [quoted] using result

end Writers

section Readers

/-- The text of a string is read byte by byte, and the closing quote with it. -/
theorem readText_quoted {τ : Type} (emit : τ → UInt8 → τ) {st : τ}
    (enough : str.length < fuel) (rest : Input) :
    readText emit fuel st ((str.flatMap escape ++ [quote]).map Item.byte ++ rest) = .ok (str.foldl emit st,rest) := by
  induction fuel generalizing st str with
  | zero => omega
  | succ fuel ih =>
    cases str with
    | nil => rfl
    | cons ch str =>
      have shorter : str.length < fuel := by simpa using enough
      cases special : charEscaping ch with
      | true =>
        obtain ⟨tail,seq,reads⟩ := readEscChar_escapeSeq special
        have text : ((ch :: str).flatMap escape ++ [quote]).map Item.byte ++ rest =
            .byte backslash :: (tail.map Item.byte ++ ((str.flatMap escape ++ [quote]).map Item.byte ++ rest)) := by
          simp [escape,special,seq]
        have differs : ¬backslash = quote := by decide
        rw [text]
        simp only [readText,readStream,Code.ok_bind,if_neg differs,if_true,reads,List.foldl_cons,List.foldl_nil]
        exact ih shorter
      | false =>
        obtain ⟨_,no_quote,no_backslash,_⟩ := plain_bytes special
        have text : ((ch :: str).flatMap escape ++ [quote]).map Item.byte ++ rest =
            .byte ch :: ((str.flatMap escape ++ [quote]).map Item.byte ++ rest) := by
          simp [escape,special]
        rw [text]
        simp only [readText,readStream,Code.ok_bind,if_neg no_quote,if_neg no_backslash,List.foldl_cons]
        exact ih shorter

theorem quoted_length (str : List UInt8) : str.length + 2 ≤ (quoted str).length := by
  have grows : str.length ≤ (str.flatMap escape).length := by
    induction str with
    | nil => exact Nat.le_refl _
    | cons ch rest ih =>
      have one : 1 ≤ (escape ch).length := by
        unfold escape escapeSeq
        repeat' split
        all_goals simp
      simp only [List.flatMap_cons,List.length_append,List.length_cons]
      omega
  simp only [quoted,List.length_append,List.length_cons,List.length_nil]
  omega

/-- After the opening quote. -/
theorem quoted_map (str : List UInt8) (rest : Input) :
    (quoted str).map Item.byte ++ rest =
      .byte quote :: ((str.flatMap escape ++ [quote]).map Item.byte ++ rest) := by simp [quoted]

theorem readToken_quoted (str : List UInt8) (rest : Input) :
    readToken ((quoted str).map Item.byte ++ rest) =
      .ok (.byte quote,(str.flatMap escape ++ [quote]).map Item.byte ++ rest) := by
  rw [quoted_map]
  generalize (str.flatMap escape ++ [quote]).map Item.byte ++ rest = inp
  cases inp <;> rfl

theorem text_enough (str : List UInt8) (rest : Input) :
    str.length < ((str.flatMap escape ++ [quote]).map Item.byte ++ rest).length + 1 := by
  have grows := quoted_length str
  simp only [quoted,List.cons_append,List.length_cons] at grows
  rw [List.length_append,List.length_map]
  omega

theorem bufAdd_fold (buf str : List UInt8) : str.foldl bufAdd buf = buf ++ str := by
  induction str generalizing buf with
  | nil => simp
  | cons ch rest ih => simp [ih,bufAdd]

theorem jsonReadAllocString_quoted (str : List UInt8) (rest : Input) :
    jsonReadAllocString ((quoted str).map Item.byte ++ rest) = .ok (some (str ++ [0]),rest) := by
  have no_null : ¬(Item.byte quote = .byte 0x6e) := by decide
  rw [jsonReadAllocString,readToken_quoted]
  simp only [Code.ok_bind,if_neg no_null,ne_eq,not_true,if_false,
    readText_quoted bufAdd (text_enough str rest),bufAdd_fold]
  rfl

/-- What is in the client's memory after some bytes: those that fit before the last one. -/
theorem copying_fold {memory : List UInt8} {i : Nat} (short : i + str.length < 2^32) :
    let c := str.foldl Copying.emit ⟨memory,i⟩
    c.i = i + str.length ∧ c.str.length = memory.length ∧
      ∀ j, j < memory.length - 1 → c.str[j]? = if i ≤ j ∧ j < i + str.length then str[j - i]? else memory[j]? := by
  induction str generalizing memory i with
  | nil =>
    refine ⟨rfl,rfl,fun j _ => ?_⟩
    have none_ : ¬(i ≤ j ∧ j < i + ([] : List UInt8).length) := by
      rw [List.length_nil]
      omega
    rw [if_neg none_]
    rfl
  | cons ch rest ih =>
    simp only [List.length_cons] at short ⊢
    have next : unsigned (i + 1) = i + 1 := Nat.mod_eq_of_lt (by omega)
    obtain ⟨count,size,cells⟩ := @ih (if i < memory.length - 1 then memory.set i ch else memory) (i + 1) (by omega)
    have same : (if i < memory.length - 1 then memory.set i ch else memory).length = memory.length := by
      split <;> simp
    rw [same] at size cells
    simp only [List.foldl_cons,Copying.emit,next]
    refine ⟨by omega,size,fun j inside => ?_⟩
    rw [cells j inside]
    by_cases here : j = i
    · subst here
      have passed : ¬(j + 1 ≤ j ∧ j < j + 1 + rest.length) := by omega
      have first : j ≤ j ∧ j < j + (rest.length + 1) := by omega
      have bound : j < memory.length := by omega
      rw [if_neg passed,if_pos inside,if_pos first,Nat.sub_self]
      simp [bound]
    · have cell : (if i < memory.length - 1 then memory.set i ch else memory)[j]? = memory[j]? := by
        split
        · exact List.getElem?_set_ne (Ne.symm here)
        · rfl
      by_cases later : i + 1 ≤ j ∧ j < i + 1 + rest.length
      · have later' : i ≤ j ∧ j < i + (rest.length + 1) := by omega
        have step : j - i = j - (i + 1) + 1 := by omega
        rw [if_pos later,if_pos later',step,List.getElem?_cons_succ]
      · have later' : ¬(i ≤ j ∧ j < i + (rest.length + 1)) := by omega
        rw [if_neg later,if_neg later',cell]

theorem toInt_small {n : Nat} (small : n < 2^31) : toInt n = n := by
  unfold toInt
  rw [Int.bmod_eq_of_le] <;> omega

theorem toInt_bound (n : Nat) : toInt n < 2^31 := by
  have bound := @Int.bmod_lt n (2^32) (by decide)
  unfold toInt
  omega

theorem jsonReadString_quoted {memory : List UInt8} (short : str.length < 2^31) (room : memory ≠ [])
    (rest : Input) :
    ∃ after, jsonReadString ((quoted str).map Item.byte ++ rest) memory = .ok ((after,str.length),rest) ∧
      after.length = memory.length ∧ str.take (memory.length - 1) ++ [0] <+: after := by
  have no_null : ¬(Item.byte quote = .byte 0x6e) := by decide
  have positive := List.length_pos_of_ne_nil room
  obtain ⟨count,size,cells⟩ := @copying_fold str memory 0 (by omega)
  let c := str.foldl Copying.emit ⟨memory,0⟩
  have count : c.i = str.length := by rw [count,Nat.zero_add]
  have size : c.str.length = memory.length := size
  let i := if c.i < c.str.length then c.i else c.str.length - 1
  refine ⟨c.str.set i 0,?_,by simpa using size,?_⟩
  · rw [jsonReadString,readToken_quoted]
    simp only [Code.ok_bind,if_neg no_null,ne_eq,not_true,if_false,
      readText_quoted Copying.emit (text_enough str rest)]
    rw [← toInt_small short,← count]
    rfl
  · have index : i = min str.length (memory.length - 1) := by
      simp only [i]
      rw [count,size]
      split <;> omega
    have place : i = (str.take (memory.length - 1)).length := by
      rw [List.length_take]
      omega
    have inside : i < c.str.length := by omega
    refine List.prefix_iff_getElem?.mpr fun j bound => ?_
    rw [List.length_append,← place,List.length_singleton] at bound
    by_cases last : j = i
    · subst last
      rw [List.getElem?_set_self inside,List.getElem_append_right (by omega)]
      simp
    · have low : j < i := by omega
      have front : j < (str.take (memory.length - 1)).length := place ▸ low
      rw [List.getElem?_set_ne (Ne.symm last),List.getElem_append_left front]
      simp only [List.length_take] at front
      rw [cells j (by omega),if_pos (by omega),Nat.sub_zero,List.getElem_take]
      exact List.getElem?_eq_getElem (by omega)

/-- The count is an `int`. -/
theorem jsonReadString_bound {inp rest : Input} {after : List UInt8} {n : Int}
    (run : jsonReadString inp str = .ok ((after,n),rest)) : n < 2^31 := by
  unfold jsonReadString at run
  obtain ⟨⟨ch,inp⟩,_,run⟩ := Code.bind_ok_iff.mp run
  dsimp only at run
  split at run
  · obtain ⟨_,_,run⟩ := Code.bind_ok_iff.mp run
    cases run
    decide
  · split at run
    · cases run
    · obtain ⟨⟨c,_⟩,_,run⟩ := Code.bind_ok_iff.mp run
      cases run
      exact toInt_bound _

/-- The rest of an array's text. -/
def closeArray : List (List UInt8) → List UInt8
  | [] => [0x5d]
  | [text] => text ++ [0x5d]
  | text :: next :: texts => text ++ 0x2c :: closeArray (next :: texts)

/-- Strings in the buffer, each with its NUL. -/
def stored (strs : List (List UInt8)) : List UInt8 := strs.flatMap fun str => str ++ [0]

theorem readElement_quoted (st : Strings) (str : List UInt8) (rest : Input) :
    readElement st ((quoted str).map Item.byte ++ rest) =
      .ok (⟨st.buf ++ str ++ [0],st.lens ++ [str.length]⟩,rest) := by
  have no_null : ¬(Item.byte quote = .byte 0x6e) := by decide
  rw [readElement,readToken_quoted]
  simp only [Code.ok_bind,if_neg no_null,ne_eq,not_true,if_false,
    readText_quoted bufAdd (text_enough str rest),bufAdd_fold]
  simp [bufAdd]

theorem readElements_quoted {strs : List (List UInt8)} (some_ : strs ≠ [])
    (enough : strs.length ≤ fuel) (st : Strings) (rest : Input) :
    readElements fuel st ((closeArray (strs.map quoted)).map Item.byte ++ rest) =
      .ok (⟨st.buf ++ stored strs,st.lens ++ strs.map List.length⟩,rest) := by
  induction fuel generalizing strs st with
  | zero =>
    rw [Nat.le_zero,List.length_eq_zero_iff] at enough
    exact absurd enough some_
  | succ fuel ih =>
    cases strs with
    | nil => exact absurd rfl some_
    | cons str strs =>
      cases strs with
      | nil =>
        have text : (closeArray ([str].map quoted)).map Item.byte ++ rest =
            (quoted str).map Item.byte ++ (.byte 0x5d :: rest) := by simp [closeArray]
        have closes : readToken (.byte 0x5d :: rest) = .ok (.byte 0x5d,rest) := by cases rest <;> rfl
        have differs : ¬(Item.byte 0x5d = .byte 0x2c) := by decide
        rw [text,readElements,readElement_quoted]
        simp only [Code.ok_bind,closes,if_neg differs,if_true]
        simp [stored]
      | cons next strs =>
        have text : (closeArray ((str :: next :: strs).map quoted)).map Item.byte ++ rest =
            (quoted str).map Item.byte ++
              (.byte 0x2c :: ((closeArray ((next :: strs).map quoted)).map Item.byte ++ rest)) := by
          simp [closeArray]
        have comma (tail : Input) : readToken (.byte 0x2c :: tail) = .ok (.byte 0x2c,tail) := by cases tail <;> rfl
        have shorter : (next :: strs).length ≤ fuel := by simpa using enough
        rw [text,readElements,readElement_quoted]
        simp only [Code.ok_bind,comma,if_true]
        rw [ih (by simp) shorter]
        simp [stored]

/-- Each pointer of the array points to its string and the NUL behind it. -/
theorem pointers_stored (front : List (List UInt8)) (str : List UInt8) (back : List (List UInt8)) (junk : List UInt8) :
    ∃ pointer, (pointers (stored (front ++ str :: back) ++ junk)
      ((front ++ str :: back).map List.length))[front.length]? = some pointer ∧ str ++ [0] <+: pointer := by
  induction front with
  | nil =>
    refine ⟨_,rfl,?_⟩
    simp [stored]
  | cons one front ih =>
    obtain ⟨pointer,found,points⟩ := ih
    refine ⟨pointer,?_,points⟩
    have dropped : (stored (one :: front ++ str :: back) ++ junk).drop (one.length + 1) =
        stored (front ++ str :: back) ++ junk := by
      have whole : stored (one :: front ++ str :: back) ++ junk =
          (one ++ [0]) ++ (stored (front ++ str :: back) ++ junk) := by simp [stored]
      rw [whole]
      exact List.drop_left' (by simp)
    rw [List.cons_append,List.map_cons,pointers,List.length_cons,List.getElem?_cons_succ]
    rw [List.cons_append] at dropped
    rw [dropped]
    exact found

theorem pointers_length (str : List UInt8) (lens : List Nat) : (pointers str lens).length = lens.length := by
  induction lens generalizing str with
  | nil => rfl
  | cons len lens ih => simp [pointers,ih]

theorem closeArray_length {texts : List (List UInt8)} (some_ : texts ≠ []) :
    texts.length ≤ (closeArray texts).length := by
  induction texts with
  | nil => exact absurd rfl some_
  | cons text texts ih =>
    cases texts with
    | nil => simp [closeArray]
    | cons next texts =>
      have grows := ih (by simp)
      simp only [closeArray,List.length_append,List.length_cons] at grows ⊢
      omega

/-- The text of an array that has a string among others. -/
def arrayText (front : List (List UInt8)) (text : List UInt8) (back : List (List UInt8)) : List UInt8 :=
  0x5b :: closeArray (front.map quoted ++ text :: back.map quoted)

theorem closeArray_quoted (str : List UInt8) (strs : List (List UInt8)) :
    ∃ tail, closeArray ((str :: strs).map quoted) = quote :: tail := by
  cases strs with
  | nil => exact ⟨_,rfl⟩
  | cons next strs => exact ⟨_,rfl⟩

theorem jsonReadAllocStringArray_quoted (front : List (List UInt8)) (str : List UInt8) (back : List (List UInt8))
    (rest : Input) :
    ∃ array pointer, jsonReadAllocStringArray ((arrayText front (quoted str) back).map Item.byte ++ rest) =
        .ok (some array,rest) ∧ array.length = front.length + 1 + back.length ∧
      array[front.length]? = some pointer ∧ str ++ [0] <+: pointer := by
  let strs := front ++ str :: back
  have all : front.map quoted ++ quoted str :: back.map quoted = strs.map quoted := by simp [strs]
  have some_ : strs ≠ [] := by simp [strs]
  let body := (closeArray (strs.map quoted)).map Item.byte ++ rest
  have text : (arrayText front (quoted str) back).map Item.byte ++ rest = .byte 0x5b :: body := by
    rw [arrayText,all]
    rfl
  obtain ⟨tail,first⟩ : ∃ tail, body = .byte quote :: tail := by
    obtain ⟨one,others,split⟩ := List.exists_cons_of_ne_nil some_
    obtain ⟨tail,first⟩ := closeArray_quoted one others
    exact ⟨tail.map Item.byte ++ rest,by simp only [body,split,first]; rfl⟩
  have opens : readToken (.byte 0x5b :: body) = .ok (.byte 0x5b,body) := by
    rw [first]
    rfl
  have peeks : jsonPeek body = .ok (.byte quote,body) := by
    rw [first]
    rfl
  have enough : strs.length ≤ body.length + 1 := by
    have grows := @closeArray_length (strs.map quoted) (by simp [strs])
    simp only [body,List.length_append,List.length_map] at grows ⊢
    omega
  have elements := readElements_quoted some_ enough ⟨[],[]⟩ rest
  obtain ⟨pointer,found,points⟩ := pointers_stored front str back [0]
  refine ⟨_,pointer,?_,?_,found,points⟩
  · have no_null : ¬(Item.byte 0x5b = .byte 0x6e) := by decide
    have no_close : ¬(Item.byte quote = .byte 0x5d) := by decide
    rw [text,jsonReadAllocStringArray,opens]
    simp only [Code.ok_bind,if_neg no_null,ne_eq,not_true,if_false,peeks,if_neg no_close]
    rw [elements]
    rfl
  · simp [pointers_length,Nat.add_assoc,Nat.add_comm 1]

end Readers

/-- What writing a string is for: its text can be read back in each of three ways, alone or in
an array with others, up to its end and no further. -/
def RoundTrips {σ : Type} (S : OutStream σ) (w : S.Writing) (write : σ → Code σ) (str : List UInt8) : Prop :=
  ∃ text final, write w.state = .ok final ∧ S.Holds final (w.items ++ text.map .byte) ∧
    (∀ rest : Input, jsonReadAllocString (text.map .byte ++ rest) = .ok (some (str ++ [0]),rest)) ∧
    (∀ (rest : Input) (memory : List UInt8), memory ≠ [] →
      ∃ after, jsonReadString (text.map .byte ++ rest) memory = .ok ((after,str.length),rest) ∧
        after.length = memory.length ∧ str.take (memory.length - 1) ++ [0] <+: after) ∧
    ∀ (rest : Input) (front back : List (List UInt8)), ∃ array pointer,
      jsonReadAllocStringArray ((arrayText front text back).map .byte ++ rest) = .ok (some array,rest) ∧
        array.length = front.length + 1 + back.length ∧
        array[front.length]? = some pointer ∧ str ++ [0] <+: pointer

theorem roundTrips_quoted {σ : Type} {S : OutStream σ} {w : S.Writing} {write : σ → Code σ}
    (short : str.length < 2^31)
    (writes : ∃ next, write w.state = .ok next ∧ S.Holds next (w.items ++ (quoted str).map .byte)) :
    RoundTrips S w write str := by
  obtain ⟨final,run,holds⟩ := writes
  exact ⟨quoted str,final,run,holds,jsonReadAllocString_quoted str,
    fun rest _ room => jsonReadString_quoted short room rest,
    fun rest front back => jsonReadAllocStringArray_quoted front str back rest⟩

/-- The output buffer of a small build. -/
def smallTcp : OutStream ChannelOutput.Channel := tcpStream .small wideShift

end Tcf.Json
