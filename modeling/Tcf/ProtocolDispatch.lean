import Tcf.Protocol

/-! What the dispatcher takes from its channel: the message up to its end, as long as handlers do
the same. Two messages are the exceptions. -/
namespace Tcf.Protocol

open Framing Json

/-- The input is within a message, and `rest` comes after the end of the message. -/
def Inside (rest inp : Input) : Prop := ∃ body : List UInt8, inp = body.map .byte ++ .eom :: rest

/-- A reader raises an exception, or reads something and the message goes on. -/
def StaysInside {α : Type} (rest inp : Input) (code : Code (α × Input)) : Prop :=
  code = .error .exception ∨ ∃ a next, code = .ok (a,next) ∧ Inside rest next ∧ next.length < inp.length

variable {fuel : Nat}

section Readers

variable {rest inp : Input}

theorem StaysInside.bind {α β : Type} {code : Code (α × Input)} {f : α × Input → Code (β × Input)}
    (first : StaysInside rest inp code) (later : ∀ a next, Inside rest next → StaysInside rest next (f (a,next))) :
    StaysInside rest inp (code >>= f) := by
  rcases first with raised | ⟨a,next,run,inside,less⟩
  · exact .inl (by rw [raised]; rfl)
  · rw [run,Code.ok_bind]
    rcases later a next inside with raised | ⟨b,last,run',inside',less'⟩
    · exact .inl raised
    · exact .inr ⟨b,last,run',inside',by omega⟩

/-- After a reader only its value changes. -/
theorem StaysInside.map {α β : Type} {code : Code (α × Input)} {f : α × Input → Code (β × Input)}
    (first : StaysInside rest inp code) (value : ∀ a next, ∃ b, f (a,next) = .ok (b,next)) :
    StaysInside rest inp (code >>= f) := by
  rcases first with raised | ⟨a,next,run,inside,less⟩
  · exact .inl (by rw [raised]; rfl)
  · obtain ⟨b,same⟩ := value a next
    exact .inr ⟨b,next,by rw [run,Code.ok_bind,same],inside,less⟩

theorem readStream_inside (inside : Inside rest inp) :
    (∃ ch next, readStream inp = .ok (.byte ch,next) ∧ Inside rest next ∧ next.length < inp.length) ∨
      readStream inp = .ok (.eom,rest) := by
  obtain ⟨body,rfl⟩ := inside
  cases body with
  | nil => exact .inr rfl
  | cons ch body => exact .inl ⟨ch,_,rfl,⟨body,rfl⟩,by simp⟩

theorem ignoreWhitespace_inside (ch : UInt8) (inside : Inside rest inp) :
    (∃ ch' next, ignoreWhitespace (.byte ch) inp = .ok (.byte ch',next) ∧ Inside rest next ∧
        next.length ≤ inp.length) ∨ ignoreWhitespace (.byte ch) inp = .ok (.eom,rest) := by
  obtain ⟨body,rfl⟩ := inside
  induction body generalizing ch with
  | nil =>
    cases space : isSpace (.byte ch) with
    | true =>
      have plain : isSpace .eom = false := rfl
      exact .inr (by cases rest <;> simp [ignoreWhitespace,space,plain])
    | false => exact .inl ⟨ch,_,by simp [ignoreWhitespace,space],⟨[],rfl⟩,Nat.le_refl _⟩
  | cons next body ih =>
    cases space : isSpace (.byte ch) with
    | true =>
      have step : ignoreWhitespace (.byte ch) ((next :: body).map .byte ++ .eom :: rest) =
          ignoreWhitespace (.byte next) (body.map .byte ++ .eom :: rest) := by
        rw [List.map_cons,List.cons_append,ignoreWhitespace,if_pos space]
      rw [step]
      rcases ih next with ⟨ch',after,run,inside,less⟩ | ended
      · exact .inl ⟨ch',after,run,inside,Nat.le_trans less (by simp)⟩
      · exact .inr ended
    | false =>
      refine .inl ⟨ch,_,?_,⟨next :: body,rfl⟩,Nat.le_refl _⟩
      simp [ignoreWhitespace,space]

theorem readToken_inside (inside : Inside rest inp) :
    (∃ ch next, readToken inp = .ok (.byte ch,next) ∧ Inside rest next ∧ next.length < inp.length) ∨
      readToken inp = .ok (.eom,rest) := by
  unfold readToken
  rcases readStream_inside inside with ⟨ch,next,run,inside',less⟩ | ended
  · rw [run,Code.ok_bind]
    rcases ignoreWhitespace_inside ch inside' with ⟨ch',last,run',inside'',less'⟩ | ended
    · exact .inl ⟨ch',last,run',inside'',by omega⟩
    · exact .inr ended
  · rw [ended,Code.ok_bind]
    exact .inr (by cases rest <;> simp [ignoreWhitespace,isSpace])

theorem jsonTestChar_inside (x : UInt8) (inside : Inside rest inp) :
    jsonTestChar x inp = .error .exception ∨
      ∃ next, jsonTestChar x inp = .ok next ∧ Inside rest next ∧ next.length < inp.length := by
  unfold jsonTestChar
  rcases readToken_inside inside with ⟨ch,next,run,inside',less⟩ | ended
  · rw [run,Code.ok_bind]
    by_cases same : Item.byte ch = .byte x
    · exact .inr ⟨next,if_pos same,inside',less⟩
    · exact .inl (if_neg same)
  · exact .inl (by simp [ended])

theorem testUll_inside (inside : Inside rest inp) :
    testUll inp = .error .exception ∨ ∃ next, testUll inp = .ok next ∧ Inside rest next ∧ next.length < inp.length := by
  unfold testUll
  rcases jsonTestChar_inside 0x75 inside with raised | ⟨next₁,run₁,inside₁,less₁⟩
  · exact .inl (by rw [raised]; rfl)
  rw [run₁,Code.ok_bind]
  rcases jsonTestChar_inside 0x6c inside₁ with raised | ⟨next₂,run₂,inside₂,less₂⟩
  · exact .inl (by rw [raised]; rfl)
  rw [run₂,Code.ok_bind]
  rcases jsonTestChar_inside 0x6c inside₂ with raised | ⟨next₃,run₃,inside₃,less₃⟩
  · exact .inl raised
  · exact .inr ⟨next₃,run₃,inside₃,by omega⟩

theorem readHexDigit_inside (inside : Inside rest inp) : StaysInside rest inp (readHexDigit inp) := by
  unfold readHexDigit
  rcases readStream_inside inside with ⟨ch,next,run,inside',less⟩ | ended
  · rw [run]
    simp only [Code.ok_bind,Code.pure_eq]
    split_ifs
    · exact .inr ⟨_,next,rfl,inside',less⟩
    · exact .inr ⟨_,next,rfl,inside',less⟩
    · exact .inr ⟨_,next,rfl,inside',less⟩
    · exact .inl rfl
  · rw [ended]
    exact .inl rfl

theorem readHexChar_inside (inside : Inside rest inp) : StaysInside rest inp (readHexChar inp) := by
  apply (readHexDigit_inside inside).bind
  intro n3 next inside
  apply (readHexDigit_inside inside).bind
  intro n2 next inside
  apply (readHexDigit_inside inside).bind
  intro n1 next inside
  apply (readHexDigit_inside inside).map
  intro n0 next
  exact ⟨_,rfl⟩

theorem readEscChar_inside (inside : Inside rest inp) : StaysInside rest inp (readEscChar inp) := by
  unfold readEscChar
  rcases readStream_inside inside with ⟨ch,next,run,inside',less⟩ | ended
  · rw [run,Code.ok_bind]
    rcases meaning : escaped ch with _ | _ | value
    · exact .inl (by simp [meaning])
    · rcases (readHexChar_inside inside').map (f := fun r => pure (utf8 r.1,r.2)) (fun a after => ⟨_,rfl⟩) with
        raised | ⟨a,last,run',inside'',less'⟩
      · exact .inl (by simp only [meaning]; exact raised)
      · exact .inr ⟨a,last,by simp only [meaning]; exact run',inside'',by omega⟩
    · exact .inr ⟨_,next,by simp only [meaning]; rfl,inside',less⟩
  · rw [ended]
    exact .inl rfl

theorem readText_inside {τ : Type} (emit : τ → UInt8 → τ) {st : τ} (inside : Inside rest inp)
    (enough : inp.length < fuel) : StaysInside rest inp (readText emit fuel st inp) := by
  induction fuel generalizing st inp with
  | zero => omega
  | succ fuel ih =>
    unfold readText
    rcases readStream_inside inside with ⟨ch,next,run,inside',less⟩ | ended
    · rw [run,Code.ok_bind]
      by_cases ends : ch = quote
      · exact .inr ⟨st,next,by simp [ends],inside',less⟩
      simp only [if_neg ends]
      by_cases escape : ch = backslash
      · simp only [if_pos escape]
        rcases readEscChar_inside inside' with raised | ⟨bytes,after,run',inside'',less'⟩
        · exact .inl (by rw [raised]; rfl)
        · rw [run',Code.ok_bind]
          rcases ih inside'' (by omega) with raised | ⟨a,last,run'',done,less''⟩
          · exact .inl raised
          · exact .inr ⟨a,last,run'',done,by omega⟩
      · simp only [if_neg escape]
        rcases ih inside' (by omega) with raised | ⟨a,last,run'',done,less''⟩
        · exact .inl raised
        · exact .inr ⟨a,last,run'',done,by omega⟩
    · rw [ended]
      exact .inl rfl

theorem jsonReadAllocString_inside (inside : Inside rest inp) : StaysInside rest inp (jsonReadAllocString inp) := by
  unfold jsonReadAllocString
  rcases readToken_inside inside with ⟨ch,next,run,inside',less⟩ | ended
  · rw [run,Code.ok_bind]
    by_cases null : Item.byte ch = .byte 0x6e
    · simp only [if_pos null]
      rcases testUll_inside inside' with raised | ⟨last,run',inside'',less'⟩
      · exact .inl (by rw [raised]; rfl)
      · exact .inr ⟨none,last,by rw [run']; rfl,inside'',by omega⟩
    simp only [if_neg null]
    by_cases string : Item.byte ch = .byte quote
    · rw [if_neg (not_not_intro string)]
      rcases @readText_inside _ rest next _ bufAdd [] inside' (Nat.lt_succ_self _) with raised | ⟨a,last,run',inside'',less'⟩
      · exact .inl (by rw [raised]; rfl)
      · exact .inr ⟨some (bufAdd a 0),last,by rw [run']; rfl,inside'',by omega⟩
    · exact .inl (if_pos string)
  · rw [ended]
    exact .inl rfl

end Readers

/-! The list of services in a Hello. -/

/-- The elements up to one that is `null` are strings. -/
inductive NullAhead : Input → Prop where
  | here {inp next : Input} : jsonReadAllocString inp = .ok (none,next) → NullAhead inp
  | later {inp next rest : Input} {service : List UInt8} : jsonReadAllocString inp = .ok (some service,next) →
      readToken next = .ok (.byte 0x2c,rest) → NullAhead rest → NullAhead inp

variable {inp : Input}

theorem nullAhead_first (null : NullAhead inp) : ∃ r, jsonReadAllocString inp = .ok r := by
  cases null with
  | here run => exact ⟨_,run⟩
  | later run => exact ⟨_,run⟩

variable {rest : Input}

theorem helloServices_null {list : List (List UInt8)} (inside : Inside rest inp)
    (enough : inp.length < fuel) (null : NullAhead inp) : helloServices fuel list inp = .error .fault := by
  induction fuel generalizing list inp with
  | zero => omega
  | succ fuel ih =>
    have string := jsonReadAllocString_inside inside
    unfold helloServices
    cases null with
    | here run => rw [run]; rfl
    | @later _ next after service run comma null =>
      rw [run] at string ⊢
      rcases string with raised | ⟨_,_,same,inside',less⟩
      · cases raised
      cases same
      simp only [Code.ok_bind,comma,if_true]
      rcases readToken_inside inside' with ⟨ch,last,token,inside'',less'⟩ | ended
      · rw [comma] at token
        cases token
        exact ih inside'' (by omega) null
      · rw [comma] at ended
        cases ended

theorem helloServices_inside {list : List (List UInt8)} (inside : Inside rest inp)
    (enough : inp.length < fuel) (strings : ¬NullAhead inp) : StaysInside rest inp (helloServices fuel list inp) := by
  induction fuel generalizing list inp with
  | zero => omega
  | succ fuel ih =>
    unfold helloServices
    rcases jsonReadAllocString_inside inside with raised | ⟨service,next,run,inside',less⟩
    · exact .inl (by rw [raised]; rfl)
    rw [run,Code.ok_bind]
    cases service with
    | none => exact absurd (.here run) strings
    | some service =>
      rcases readToken_inside inside' with ⟨ch,last,token,inside'',less'⟩ | ended
      · simp only [token,Code.ok_bind]
        by_cases comma : ch = 0x2c
        · subst comma
          simp only [if_true]
          have later : ¬NullAhead last := fun null => strings (.later run token null)
          rcases @ih last (list ++ [service]) inside'' (by omega) later with raised | ⟨a,end_,run',done,less''⟩
          · exact .inl raised
          · exact .inr ⟨a,end_,run',done,by omega⟩
        · have other : ¬(Item.byte ch = .byte 0x2c) := by simpa using comma
          rw [if_neg other]
          split
          · exact .inr ⟨_,last,rfl,inside'',by omega⟩
          · exact .inl rfl
      · exact .inl (by simp [ended])

/-- A list of services with a `null` in it. -/
def NullService (inp : Input) : Prop := ∃ next, readToken inp = .ok (.byte 0x5b,next) ∧ NullAhead next

theorem peek_null (null : NullAhead inp) : ∃ ch, peekStream inp = .ok ch ∧ ch ≠ .byte 0x5d := by
  obtain ⟨r,run⟩ := nullAhead_first null
  cases inp with
  | nil => cases run
  | cons ch rest =>
    refine ⟨ch,rfl,?_⟩
    rintro rfl
    have plain : isSpace (.byte 0x5d) = false := by decide
    have no_null : ¬(Item.byte 0x5d = .byte 0x6e) := by decide
    have no_quote : Item.byte 0x5d ≠ .byte quote := by decide
    simp only [jsonReadAllocString,readToken_plain plain,Code.ok_bind,if_neg no_null,if_pos no_quote] at run
    cases run

theorem readHello_null (inside : Inside rest inp) (null : NullService inp) :
    readHello inp = .error .fault := by
  obtain ⟨next,open_,null⟩ := null
  obtain ⟨ch,peek,other⟩ := peek_null null
  rcases readToken_inside inside with ⟨_,_,token,inside',_⟩ | ended
  · rw [open_] at token
    cases token
    have same : ¬(Item.byte 0x5b ≠ .byte 0x5b) := by simp
    simp only [readHello,helloList,open_,Code.ok_bind,if_neg same,peek,if_neg other,
      helloServices_null inside' (Nat.lt_succ_self _) null]
    rfl
  · rw [open_] at ended
    cases ended

theorem helloEnd_inside (inside : Inside rest inp) :
    helloEnd inp = .error .exception ∨ helloEnd inp = .ok rest := by
  obtain ⟨body,rfl⟩ := inside
  unfold helloEnd
  cases body with
  | nil => exact .inl rfl
  | cons ch body =>
    simp only [List.map_cons,List.cons_append,readStream,Code.ok_bind]
    split_ifs with other
    · exact .inl rfl
    cases body with
    | nil => exact .inr rfl
    | cons ch' body => exact .inl rfl

theorem readHello_inside (inside : Inside rest inp) (strings : ¬NullService inp) :
    readHello inp = .error .exception ∨ ∃ list, readHello inp = .ok (list,rest) := by
  have list : StaysInside rest inp (helloList inp) := by
    unfold helloList
    rcases readToken_inside inside with ⟨ch,next,token,inside',less⟩ | ended
    · rw [token,Code.ok_bind]
      by_cases open_ : ch = 0x5b
      · subst open_
        have some_ : ¬NullAhead next := fun null => strings ⟨next,token,null⟩
        have services := @helloServices_inside (next.length + 1) _ _ [] inside' (Nat.lt_succ_self _) some_
        have same : ¬(Item.byte 0x5b ≠ .byte 0x5b) := by simp
        simp only [if_neg same]
        obtain ⟨body,rfl⟩ := inside'
        cases body with
        | nil =>
          have other : ¬(Item.eom = .byte 0x5d) := by simp
          simp only [List.map_nil,List.nil_append,peekStream,Code.ok_bind,if_neg other]
          rcases services with raised | ⟨a,last,run,done,less'⟩
          · exact .inl raised
          · exact .inr ⟨a,last,run,done,Nat.lt_trans less' less⟩
        | cons first body =>
          simp only [List.map_cons,List.cons_append,peekStream,Code.ok_bind]
          split_ifs
          · refine .inr ⟨[],_,rfl,⟨body,rfl⟩,?_⟩
            simp only [List.tail_cons]
            simp only [List.map_cons,List.cons_append,List.length_cons] at less
            omega
          · rcases services with raised | ⟨a,last,run,done,less'⟩
            · exact .inl raised
            · exact .inr ⟨a,last,run,done,Nat.lt_trans less' less⟩
      · have other : Item.byte ch ≠ .byte 0x5b := by simpa using open_
        exact .inl (if_pos other)
    · exact .inl (by simp [ended])
  unfold readHello
  rcases list with raised | ⟨a,next,run,inside',_⟩
  · exact .inl (by rw [raised]; rfl)
  · rw [run,Code.ok_bind]
    rcases helloEnd_inside inside' with raised | run'
    · exact .inl (by simp [raised])
    · exact .inr ⟨a,by simp [run']⟩

/-! A message. -/

/-- The handler of `c` raises an exception, or it leaves the input at `rest`. -/
def Leaves {γ : Type} (c : Address) (rest : Input) (code : Code (World γ)) : Prop :=
  code = .error .exception ∨ ∃ w, code = .ok w ∧ (w.channels c).inp = rest

/-- Handlers take what is left of their message, up to its end. After an error there is no message
for a reply handler to take, and a new connection has none. -/
structure Handlers.Obedient {γ : Type} (env : Handlers γ) : Prop where
  command : ∀ fn token c data w rest, Inside rest (w.channels c).inp → Leaves c rest (env.command fn token c data w)
  default : ∀ fn c args data w rest, Inside rest (w.channels c).inp → Leaves c rest (env.default fn c args data w)
  event : ∀ fn c data w rest, Inside rest (w.channels c).inp → Leaves c rest (env.event fn c data w)
  reply : ∀ fn c data w rest, Inside rest (w.channels c).inp → Leaves c rest (env.reply fn c data 0 w)
  failed : ∀ fn c data error w, error ≠ 0 → Leaves c (w.channels c).inp (env.reply fn c data error w)
  progress : ∀ fn c data w rest, Inside rest (w.channels c).inp → Leaves c rest (env.progress fn c data w)
  opened : ∀ c w, Leaves c (w.channels c).inp (env.opened c w)

section Dispatch

variable {γ : Type} {m : MemUsage} {env : Handlers γ} {c : Address} {w : World γ} {rest : Input}

@[simp] theorem update_same (w : World γ) (c : Address) (f : Channel → Channel) :
    (w.update c f).channels c = f (w.channels c) := by simp [World.update]

@[simp] theorem update_tables (w : World γ) (c : Address) (f : Channel → Channel) :
    (w.update c f).replyHandlers = w.replyHandlers := rfl

theorem skipUntilEOM_inside (inside : Inside rest inp) : skipUntilEOM inp = .ok rest := by
  obtain ⟨body,rfl⟩ := inside
  induction body with
  | nil => rfl
  | cons ch body ih => exact ih

theorem skipOn_run (inside : Inside rest (w.channels c).inp) :
    skipOn c w = .ok (w.update c ({ · with inp := rest })) := by simp [skipOn,skipUntilEOM_inside inside]

theorem skipOn_inside (inside : Inside rest (w.channels c).inp) : Leaves c rest (skipOn c w) :=
  .inr ⟨_,skipOn_run inside,by simp⟩

theorem refuse_inside (token : List UInt8) (inside : Inside rest (w.channels c).inp) :
    Leaves c rest (refuse c token w) := by
  unfold refuse
  rw [skipOn_run inside]
  exact .inr ⟨_,rfl,by simp [write]⟩

theorem callDefault_inside (obedient : env.Obedient) {args : List (List UInt8)} {otherwise : World γ → Code (World γ)}
    (inside : Inside rest (w.channels c).inp) (other : Leaves c rest (otherwise w)) :
    Leaves c rest (callDefault env c args otherwise w) := by
  unfold callDefault
  dsimp only
  split
  · exact obedient.default _ c args _ w rest inside
  · exact other

variable {size : Nat} {s : List UInt8}

theorem readStringz_run {str : List UInt8} (nulFree : 0 ∉ s) (inp : Input) :
    readStringz size str (s.map .byte ++ .byte 0 :: inp) = .ok (str ++ s.take (size - 1 - str.length),inp) := by
  induction s generalizing str with
  | nil => simp [readStringz]
  | cons ch s ih =>
    rw [List.mem_cons,not_or] at nulFree
    obtain ⟨first,later⟩ := nulFree
    have char : ¬ch = 0 := fun same => first same.symm
    simp only [List.map_cons,List.cons_append,readStringz,if_neg char]
    rw [ih later]
    by_cases room : str.length < size - 1
    · obtain ⟨k,left⟩ : ∃ k, size - 1 - str.length = k + 1 := ⟨size - 1 - str.length - 1,by omega⟩
      have less : size - 1 - (str.length + 1) = k := by omega
      simp [if_pos room,left,less]
    · have full : size - 1 - str.length = 0 := by omega
      simp [if_neg room,full]

theorem readStringz_short {str : List UInt8} (nulFree : 0 ∉ s) :
    readStringz size str (s.map .byte ++ .eom :: rest) = .error .exception := by
  induction s generalizing str with
  | nil => rfl
  | cons ch s ih =>
    rw [List.mem_cons,not_or] at nulFree
    obtain ⟨first,later⟩ := nulFree
    have char : ¬ch = 0 := fun same => first same.symm
    simp only [List.map_cons,List.cons_append,readStringz,if_neg char]
    exact ih later

theorem take_short {t : List UInt8} {n : Nat} (same : s.take n = t) (short : t.length < n) : s = t := by
  have size := congrArg List.length same
  rw [List.length_take] at size
  rw [← same,List.take_of_length_le (by omega)]

/-- One string of a message, when the message has it. -/
theorem readFrom_stringz (size : Nat) (inside : Inside rest (w.channels c).inp) :
    readFrom c (readStringz size []) w = .error .exception ∨
      ∃ s inp, (w.channels c).inp = stringz s ++ inp ∧ 0 ∉ s ∧ Inside rest inp ∧
        readFrom c (readStringz size []) w = .ok (s.take (size - 1),w.update c ({ · with inp })) := by
  obtain ⟨body,same⟩ := inside
  unfold readFrom
  by_cases zero : 0 ∈ body
  · obtain ⟨s,more,rfl,nulFree⟩ := List.eq_append_cons_of_mem zero
    have text : (w.channels c).inp = s.map .byte ++ .byte 0 :: (more.map .byte ++ .eom :: rest) := by simp [same]
    refine .inr ⟨s,more.map .byte ++ .eom :: rest,by simp [text,stringz],nulFree,⟨more,rfl⟩,?_⟩
    rw [text,readStringz_run nulFree]
    rfl
  · rw [same,readStringz_short zero]
    exact .inl rfl

theorem levelDigits_inside (ch : UInt8) (n : Int) (inside : Inside rest inp) :
    (∃ ch' n' next, levelDigits (.byte ch) n inp = .ok ((.byte ch',n'),next) ∧ Inside rest next) ∨
      ∃ n', levelDigits (.byte ch) n inp = .ok ((.eom,n'),rest) := by
  obtain ⟨body,rfl⟩ := inside
  induction body generalizing ch n with
  | nil =>
    by_cases digit : isDigit ch = true
    · exact .inr ⟨_,by simp [levelDigits,digit]; rfl⟩
    · exact .inl ⟨ch,n,_,by simp [levelDigits,digit],⟨[],rfl⟩⟩
  | cons next body ih =>
    by_cases digit : isDigit ch = true
    · simp only [List.map_cons,List.cons_append,levelDigits,if_pos digit]
      exact ih next _
    · exact .inl ⟨ch,n,_,by simp [levelDigits,digit],⟨next :: body,rfl⟩⟩

theorem readZero_inside (ch : UInt8) (inside : Inside rest inp) :
    (∃ ch' next, readZero (.byte ch) inp = .ok (.byte ch',next)) ∨ readZero (.byte ch) inp = .ok (.eom,rest) := by
  unfold readZero
  by_cases zero : Item.byte ch = .byte 0
  · rw [if_pos zero]
    rcases readStream_inside inside with ⟨ch',next,run,_,_⟩ | ended
    · exact .inl ⟨ch',next,run⟩
    · exact .inr ended
  · rw [if_neg zero]
    exact .inl ⟨ch,inp,rfl⟩

theorem readSign_inside (ch : UInt8) (inside : Inside rest inp) :
    (∃ ch' next, readSign (.byte ch) inp = .ok (.byte ch',next) ∧ Inside rest next) ∨
      readSign (.byte ch) inp = .ok (.eom,rest) := by
  unfold readSign
  by_cases minus : Item.byte ch = .byte 0x2d
  · rw [if_pos minus]
    rcases readStream_inside inside with ⟨ch',next,run,inside',_⟩ | ended
    · exact .inl ⟨ch',next,run,inside'⟩
    · exact .inr ended
  · rw [if_neg minus]
    exact .inl ⟨ch,inp,rfl,inside⟩

theorem readLevel_inside (inside : Inside rest inp) :
    readLevel inp = .error .exception ∨ ∃ level, readLevel inp = .ok (level,rest) := by
  have none_ (n : Int) : levelDigits .eom n rest = .ok ((.eom,n),rest) := by cases rest <;> rfl
  have zero : readZero .eom rest = .ok (.eom,rest) := by simp [readZero]
  have ends : ¬(Item.eom ≠ .eom) := by simp
  unfold readLevel
  rcases readStream_inside inside with ⟨ch,next,run,inside₁,_⟩ | ended
  · simp only [run,Code.ok_bind]
    rcases readSign_inside ch inside₁ with ⟨ch₁,next₁,run₁,inside₂⟩ | ended
    · simp only [run₁,Code.ok_bind]
      rcases levelDigits_inside ch₁ 0 inside₂ with ⟨ch₂,n,next₂,run₂,inside₃⟩ | ⟨n,ended⟩
      · simp only [run₂,Code.ok_bind]
        rcases readZero_inside ch₂ inside₃ with ⟨ch₃,next₃,run₃⟩ | ended
        · simp only [run₃,Code.ok_bind]
          exact .inl (if_pos (by simp))
        · simp only [ended,Code.ok_bind]
          exact .inr ⟨_,if_neg ends⟩
      · simp only [ended,Code.ok_bind,zero]
        exact .inr ⟨_,if_neg ends⟩
    · simp only [ended,Code.ok_bind,none_,zero]
      exact .inr ⟨_,if_neg ends⟩
  · have sign : readSign .eom rest = .ok (.eom,rest) := by simp [readSign]
    simp only [ended,Code.ok_bind,sign,none_,zero]
    exact .inr ⟨_,if_neg ends⟩

variable {type : List UInt8}

section

variable (obedient : env.Obedient)

include obedient

theorem commandMessage_inside (inside : Inside rest (w.channels c).inp) :
    Leaves c rest (commandMessage m env c type w) := by
  unfold commandMessage
  rcases readFrom_stringz 256 inside with raised | ⟨token,inp₁,_,_,inside₁,run₁⟩
  · exact .inl (by rw [raised]; rfl)
  rw [run₁,Code.ok_bind]
  rcases @readFrom_stringz _ c (w.update c ({ · with inp := inp₁ })) rest 256 (by simpa using inside₁) with
    raised | ⟨service,inp₂,_,_,inside₂,run₂⟩
  · exact .inl (by simp only [raised]; rfl)
  simp only [run₂,Code.ok_bind]
  generalize second : World.update _ c ({ · with inp := inp₂ }) = w₂
  have within₂ : Inside rest (w₂.channels c).inp := by
    rw [← second]
    simpa using inside₂
  rcases readFrom_stringz 256 within₂ with raised | ⟨name,inp₃,_,_,inside₃,run₃⟩
  · exact .inl (by simp only [raised]; rfl)
  simp only [run₃,Code.ok_bind]
  generalize third : World.update _ c ({ · with inp := inp₃ }) = w₃
  have within₃ : Inside rest (w₃.channels c).inp := by
    rw [← third]
    simpa using inside₃
  split_ifs
  · exact refuse_inside _ within₃
  · split
    · exact obedient.command _ _ _ _ _ _ within₃
    · exact callDefault_inside obedient within₃ (refuse_inside _ within₃)

/-- A refusal that names an entry without handler. -/
def DroppedRefusal (m : MemUsage) (c : Address) (w : World γ) : Prop :=
  ∃ token inp rh, (w.channels c).inp = stringz stringN ++ (stringz token ++ inp) ∧ 0 ∉ token ∧
    replyNamed m w c (token.take 255) = some rh ∧ rh.handler = none

/-- A Hello that is expected, with a service `null`. -/
def NullHello (c : Address) (w : World γ) : Prop :=
  ((w.channels c).state = .started ∨ (w.channels c).state = .helloSent) ∧
    ∃ inp, (w.channels c).inp = stringz stringE ++ (stringz locator ++ (stringz hello ++ inp)) ∧ NullService inp

theorem finishReply_inside {rh : ReplyHandlerInfo}
    (inside : Inside rest (w.channels c).inp) (kept : type = stringN → rh.handler ≠ none) :
    Leaves c rest (finishReply env c type rh w) := by
  unfold finishReply
  by_cases refusal : type = stringN
  · obtain ⟨handler,some_⟩ := Option.ne_none_iff_exists'.mp (kept refusal)
    simp only [if_pos refusal,skipOn_run inside,Code.ok_bind,some_]
    have failed := obedient.failed handler c rh.clientData ERR_INV_COMMAND (w.update c ({ · with inp := rest })) (by decide)
    rwa [update_same] at failed
  · simp only [if_neg refusal,Code.pure_eq,Code.ok_bind]
    split
    · exact obedient.reply _ _ _ _ _ inside
    · exact skipOn_inside inside

theorem replyMessage_inside (inside : Inside rest (w.channels c).inp)
    (kept : type = stringN → ∀ token inp rh, (w.channels c).inp = stringz token ++ inp → 0 ∉ token →
      replyNamed m w c (token.take 255) = some rh → rh.handler ≠ none) :
    Leaves c rest (replyMessage m env c type w) := by
  unfold replyMessage
  rcases readFrom_stringz 256 inside with raised | ⟨token,inp₁,text,nulFree,inside₁,run₁⟩
  · exact .inl (by rw [raised]; rfl)
  rw [run₁,Code.ok_bind]
  have within₁ : Inside rest ((w.update c ({ · with inp := inp₁ })).channels c).inp := by simpa using inside₁
  have same : replyNamed m (w.update c ({ · with inp := inp₁ })) c = replyNamed m w c := rfl
  simp only [same]
  rcases named : replyNamed m w c (token.take 255) with _ | rh
  · exact callDefault_inside obedient within₁ (.inl rfl)
  simp only
  split_ifs
  · split
    · exact obedient.progress _ _ _ _ _ within₁
    · exact skipOn_inside within₁
  · exact finishReply_inside obedient (by simpa using inside₁)
      (fun refusal => kept refusal token inp₁ rh text nulFree named)

theorem eventLocatorHello_inside (inside : Inside rest (w.channels c).inp)
    (strings : ¬NullService (w.channels c).inp) : Leaves c rest (eventLocatorHello env c w) := by
  unfold eventLocatorHello readFrom
  rcases readHello_inside inside strings with raised | ⟨list,run⟩
  · exact .inl (by rw [raised]; rfl)
  simp only [run,Code.ok_bind,Code.pure_eq]
  by_cases late : ((w.update c ({ · with inp := rest })).channels c).state ≠ .started ∧
      ((w.update c ({ · with inp := rest })).channels c).state ≠ .helloSent
  · rw [if_pos late]
    exact .inr ⟨_,rfl,by simp⟩
  rw [if_neg late]
  generalize greeted : World.update (World.update _ c _) c _ = w'
  have input : (w'.channels c).inp = rest := by
    rw [← greeted]
    simp
  split
  · exact .inr ⟨w',rfl,input⟩
  · have next := obedient.opened c w'
    rwa [input] at next

theorem eventMessage_inside (inside : Inside rest (w.channels c).inp)
    (strings : (w.channels c).state = .started ∨ (w.channels c).state = .helloSent → ∀ inp,
      (w.channels c).inp = stringz locator ++ (stringz hello ++ inp) → ¬NullService inp) :
    Leaves c rest (eventMessage m env c type w) := by
  unfold eventMessage
  rcases readFrom_stringz 256 inside with raised | ⟨service,inp₁,text₁,_,inside₁,run₁⟩
  · exact .inl (by rw [raised]; rfl)
  rw [run₁,Code.ok_bind]
  rcases @readFrom_stringz _ c (w.update c ({ · with inp := inp₁ })) rest 256 (by simpa using inside₁) with
    raised | ⟨name,inp₂,text₂,_,inside₂,run₂⟩
  · exact .inl (by simp only [raised]; rfl)
  simp only [run₂,Code.ok_bind]
  generalize second : World.update _ c ({ · with inp := inp₂ }) = w₂
  have within₂ : Inside rest (w₂.channels c).inp := by
    rw [← second]
    simpa using inside₂
  have state : (w₂.channels c).state = (w.channels c).state := by
    rw [← second]
    simp
  split_ifs with expected
  · apply eventLocatorHello_inside obedient within₂
    obtain ⟨early,first,later⟩ := expected
    rw [state] at early
    have text : (w₂.channels c).inp = inp₂ := by
      rw [← second]
      simp
    rw [text]
    apply strings early
    have text₂ : inp₁ = stringz name ++ inp₂ := by simpa using text₂
    rw [text₁,text₂,take_short first (by decide),take_short later (by decide)]
  · split
    · exact obedient.event _ _ _ _ _ within₂
    · exact callDefault_inside obedient within₂ (skipOn_inside within₂)

/-- Every message but two kinds is taken whole. -/
theorem dispatch_inside (inside : Inside rest (w.channels c).inp)
    (kept : ¬DroppedRefusal m c w) (strings : ¬NullHello c w) : Leaves c rest (handleProtocolMessage m env c w) := by
  unfold handleProtocolMessage
  rcases readFrom_stringz 8 inside with raised | ⟨type,inp,text,_,inside₁,run⟩
  · exact .inl (by rw [raised]; rfl)
  rw [run,Code.ok_bind]
  generalize first : World.update w c ({ · with inp }) = w₁
  have within : Inside rest (w₁.channels c).inp := by
    rw [← first]
    simpa using inside₁
  have left : (w₁.channels c).inp = inp ∧ (w₁.channels c).state = (w.channels c).state ∧
      w₁.replyHandlers = w.replyHandlers := by
    rw [← first]
    simp
  obtain ⟨input,state,table⟩ := left
  simp only
  split_ifs with one command reply event flow
  · exact .inl rfl
  · exact commandMessage_inside obedient within
  · apply replyMessage_inside obedient within
    intro refusal token inp' rh text' nulFree named
    have named' : replyNamed m w c (token.take 255) = some rh := by rwa [replyNamed,table] at named
    have type_ := take_short refusal (by decide)
    rintro cleared
    exact kept ⟨token,inp',rh,by rw [text,type_,← input,text'],nulFree,named',cleared⟩
  · apply eventMessage_inside obedient within
    intro early inp' text' null
    have type_ := take_short event (by decide)
    rw [state] at early
    exact strings ⟨early,inp',by rw [text,type_,← input,text'],null⟩
  · unfold flowMessage readFrom
    rcases readLevel_inside within with raised | ⟨level,run'⟩
    · exact .inl (by rw [raised]; rfl)
    · exact .inr ⟨_,by rw [run']; rfl,by simp⟩
  · exact callDefault_inside obedient within (.inl rfl)

end

theorem skipUntilEOM_shorter {next : Input} (run : skipUntilEOM inp = .ok next) : next.length < inp.length := by
  induction inp with
  | nil => cases run
  | cons ch inp ih =>
    cases ch with
    | byte ch =>
      have less := ih run
      rw [List.length_cons]
      omega
    | eom =>
      cases run
      simp
    | eos =>
      cases run
      simp

theorem skipUntilEOM_stuck {stop : Stop} (run : skipUntilEOM inp = .error stop) : stop = .stuck := by
  induction inp with
  | nil =>
    cases run
    rfl
  | cons ch inp ih =>
    cases ch with
    | byte ch => exact ih run
    | eom => cases run
    | eos => cases run

theorem readFrom_text (text : (w.channels c).inp = stringz s ++ inp)
    (nulFree : 0 ∉ s) :
    readFrom c (readStringz size []) w = .ok (s.take (size - 1),w.update c ({ · with inp })) := by
  have text' : (w.channels c).inp = s.map .byte ++ .byte 0 :: inp := by simp [text,stringz]
  rw [readFrom,text',readStringz_run nulFree]
  rfl

theorem inside_bytes (inside : Inside rest (s.map .byte ++ inp)) : Inside rest inp := by
  induction s with
  | nil => exact inside
  | cons ch s ih =>
    obtain ⟨body,same⟩ := inside
    cases body with
    | nil => cases (List.cons.inj same).1
    | cons _ body => exact ih ⟨body,(List.cons.inj same).2⟩

/-- The next message is skipped too. -/
theorem dropped_strays (inside : Inside rest (w.channels c).inp) (dropped : DroppedRefusal m c w) :
    ¬Leaves c rest (handleProtocolMessage m env c w) := by
  obtain ⟨token,inp,rh,text,nulFree,named,cleared⟩ := dropped
  rw [text] at inside
  have inside' : Inside rest inp := inside_bytes (inside_bytes inside)
  generalize first : w.update c ({ · with inp := stringz token ++ inp }) = w₁
  have text₁ : (w₁.channels c).inp = stringz token ++ inp ∧ w₁.replyHandlers = w.replyHandlers := by
    rw [← first]
    simp
  have named₁ (f : Channel → Channel) : replyNamed m (w₁.update c f) c (token.take 255) = some rh := by
    rw [replyNamed,update_tables,text₁.2]
    exact named
  have handle : handleProtocolMessage m env c w = replyMessage m env c stringN w₁ := by
    rw [handleProtocolMessage,readFrom_text text (by decide),Code.ok_bind]
    dsimp only
    rw [first]
    rfl
  have reply : ∃ w₂ : World γ, (w₂.channels c).inp = inp ∧
      replyMessage m env c stringN w₁ = finishReply env c stringN rh w₂ := by
    refine ⟨{ w₁.update c ({ · with inp }) with replyHandlers := takeReplyHandler m w₁.replyHandlers c rh.tokenid },
      by simp,?_⟩
    rw [replyMessage,readFrom_text text₁.1 nulFree,Code.ok_bind]
    simp only [named₁]
    rfl
  obtain ⟨w₂,left,finish⟩ := reply
  have within : Inside rest (w₂.channels c).inp := by rwa [left]
  rw [handle,finish,finishReply,if_pos rfl,skipOn_run within,Code.ok_bind,cleared]
  dsimp only
  unfold skipOn
  rw [update_same]
  rcases skipped : skipUntilEOM rest with stop | next
  · rintro (raised | ⟨w',run,_⟩)
    · cases skipUntilEOM_stuck skipped
      cases raised
    · cases run
  · have less := skipUntilEOM_shorter skipped
    rintro (raised | ⟨w',run,same⟩)
    · cases raised
    · cases run
      rw [update_same] at same
      rw [← same] at less
      exact absurd less (Nat.lt_irrefl _)

/-- Comparing the name to `ZeroCopy` reads from NULL. -/
theorem nullHello_faults (inside : Inside rest (w.channels c).inp) (null : NullHello c w) :
    ¬Leaves c rest (handleProtocolMessage m env c w) := by
  obtain ⟨early,inp,text,service⟩ := null
  rw [text] at inside
  have inside' : Inside rest inp := inside_bytes (inside_bytes (inside_bytes inside))
  generalize first : w.update c ({ · with inp := stringz locator ++ (stringz hello ++ inp) }) = w₁
  have left₁ : (w₁.channels c).inp = stringz locator ++ (stringz hello ++ inp) ∧
      (w₁.channels c).state = (w.channels c).state := by
    rw [← first]
    simp
  have event : handleProtocolMessage m env c w = eventMessage m env c stringE w₁ := by
    rw [handleProtocolMessage,readFrom_text text (by decide),Code.ok_bind]
    dsimp only
    rw [first]
    rfl
  generalize second : w₁.update c ({ · with inp := stringz hello ++ inp }) = w₂
  have left₂ : (w₂.channels c).inp = stringz hello ++ inp ∧ (w₂.channels c).state = (w.channels c).state := by
    rw [← second,← left₁.2]
    simp
  generalize third : w₂.update c ({ · with inp }) = w₃
  have left₃ : (w₃.channels c).inp = inp ∧ (w₃.channels c).state = (w.channels c).state := by
    rw [← third,← left₂.2]
    simp
  have expected : ((w₃.channels c).state = .started ∨ (w₃.channels c).state = .helloSent) ∧
      locator.take 255 = locator ∧ hello.take 255 = hello := ⟨by rw [left₃.2]; exact early,rfl,rfl⟩
  have greet : eventMessage m env c stringE w₁ = eventLocatorHello env c w₃ := by
    rw [eventMessage,readFrom_text left₁.1 (by decide),Code.ok_bind]
    dsimp only
    rw [second,readFrom_text left₂.1 (by decide),Code.ok_bind]
    dsimp only
    rw [third,if_pos expected]
  have fault : eventLocatorHello env c w₃ = .error .fault := by
    rw [eventLocatorHello,readFrom,left₃.1,readHello_null inside' service]
    rfl
  rw [event,greet,fault]
  rintro (raised | ⟨w',run,_⟩)
  · cases raised
  · cases run

/-- The dispatcher keeps to the message, but for two kinds. -/
theorem dispatch_framed_iff (obedient : env.Obedient) (inside : Inside rest (w.channels c).inp) :
    Leaves c rest (handleProtocolMessage m env c w) ↔ ¬DroppedRefusal m c w ∧ ¬NullHello c w :=
  ⟨fun framed => ⟨fun dropped => dropped_strays inside dropped framed,fun null => nullHello_faults inside null framed⟩,
    fun clear => dispatch_inside obedient inside clear.1 clear.2⟩

end Dispatch

/-- Handlers that skip their messages. -/
def skipping : Handlers Unit where
  command _ _ c _ w := skipOn c w
  default _ c _ _ w := skipOn c w
  event _ c _ w := skipOn c w
  reply _ c _ error w := if error = 0 then skipOn c w else .ok w
  progress _ c _ w := skipOn c w
  opened _ w := .ok w

theorem skipping_obedient : skipping.Obedient where
  command _ _ _ _ _ _ inside := skipOn_inside inside
  default _ _ _ _ _ _ inside := skipOn_inside inside
  event _ _ _ _ _ inside := skipOn_inside inside
  reply _ _ _ _ _ inside := skipOn_inside inside
  failed _ _ _ _ w nonzero := .inr ⟨w,if_neg nonzero,rfl⟩
  progress _ _ _ _ _ inside := skipOn_inside inside
  opened _ w := .inr ⟨w,rfl,rfl⟩

/-- A connected channel at address 0 with these messages, and a command 1 whose handler was cleared. -/
def afterRedirect (inp : Input) : World Unit where
  channels _ := ⟨.connected,0,inp,[],false,some [],0⟩
  protocols _ := ⟨2,none,0⟩
  messageHandlers _ := []
  eventHandlers _ := []
  replyHandlers i := if i = 1 then [⟨0,1,0,none,none,0⟩] else []
  clients := ()

/-- `N 1`, and the event that comes next -/
def refusalAndEvent : Input := stringz stringN ++ stringz [0x31] ++ .eom :: (stringz stringE ++ [.eom])

/-- The event is lost. -/
theorem refusal_skips_event : skipping.Obedient ∧
    Inside (stringz stringE ++ [.eom]) ((afterRedirect refusalAndEvent).channels 0).inp ∧
    ¬Leaves 0 (stringz stringE ++ [.eom]) (handleProtocolMessage ⟨1,Nat.one_pos⟩ skipping 0 (afterRedirect refusalAndEvent)) := by
  have inside : Inside (stringz stringE ++ [.eom]) ((afterRedirect refusalAndEvent).channels 0).inp :=
    ⟨[0x4e,0,0x31,0],rfl⟩
  exact ⟨skipping_obedient,inside,dropped_strays inside
    ⟨[0x31],_,⟨0,1,0,none,none,0⟩,rfl,by decide,by decide +kernel,rfl⟩⟩

/-- An event in a connected channel. -/
theorem dispatch_event :
    Leaves 0 [] (handleProtocolMessage ⟨1,Nat.one_pos⟩ skipping 0 (afterRedirect (stringz stringE ++ [.eom]))) ↔
      ¬DroppedRefusal ⟨1,Nat.one_pos⟩ 0 (afterRedirect (stringz stringE ++ [.eom])) ∧
      ¬NullHello 0 (afterRedirect (stringz stringE ++ [.eom])) :=
  dispatch_framed_iff skipping_obedient ⟨[0x45,0],rfl⟩

end Tcf.Protocol
