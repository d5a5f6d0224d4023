import Tcf.Base.Boundary
import Tcf.JsonReaders
import Tcf.Base64Strict

/-! The end of a message or of the stream is a boundary for the readers of JSON texts. -/
namespace Tcf.Json

open Framing Boundary

variable {m : Item} {front : Input} {α κ ρ : Type} [Remains ρ Item] {K : κ → Prop}

theorem marker_space {x : Item} (marker : x.marker = true) : isSpace x = false := by
  cases x with
  | byte ch => cases marker
  | eom | eos => rfl

theorem marker_byte {x : Item} (marker : x.marker = true) (ch : UInt8) : x ≠ .byte ch := by
  rintro rfl
  cases marker

section Primitives

variable {next : κ → Item × Input → Code ρ} (boundary : m.marker = true)

include boundary

/-- A reader of a character that raises an exception when it is a marker. -/
theorem stops_stream (marker : ∀ x : Item, x.marker = true → ∀ k inp, next k (x,inp) = .error .exception)
    (byte : ∀ ch left, left.length < front.length → StopsFor m left K fun k inp => next k (.byte ch,inp)) :
    StopsFor m front K fun k inp => readStream inp >>= next k := by
  cases front with
  | nil => exact .inl fun k _ behind => marker m boundary k behind
  | cons x left =>
    cases x with
    | byte ch => exact (byte ch left (Nat.lt_succ_self _)).after (Nat.le_succ _) fun _ _ => rfl
    | eom => exact .inl fun k _ behind => marker .eom rfl k _
    | eos => exact .inl fun k _ behind => marker .eos rfl k _

theorem stops_token (marker : ∀ x : Item, x.marker = true → ∀ k inp, next k (x,inp) = .error .exception)
    (byte : ∀ ch left, left.length < front.length → StopsFor m left K fun k inp => next k (.byte ch,inp)) :
    StopsFor m front K fun k inp => readToken inp >>= next k := by
  induction front with
  | nil =>
    refine .inl fun k _ behind => ?_
    change readToken (m :: behind) >>= next k = _
    rw [readToken_plain (marker_space boundary)]
    exact marker m boundary k behind
  | cons x left ih =>
    by_cases white : isSpace x = true
    · refine (ih fun ch rest short => byte ch rest (Nat.lt_succ_of_lt short)).after (Nat.le_succ _) fun k behind => ?_
      cases left with
      | nil => simp [readToken,readStream,ignoreWhitespace,white]
      | cons y left => simp [readToken,readStream,ignoreWhitespace,white]
    · have plain : isSpace x = false := by simpa using white
      cases x with
      | byte ch =>
        refine (byte ch left (Nat.lt_succ_self _)).after (Nat.le_succ _) fun k behind => ?_
        rw [List.cons_append,readToken_plain plain]
        rfl
      | eom | eos =>
        refine .inl fun k _ behind => ?_
        change readToken (_ :: (left ++ m :: behind)) >>= next k = _
        rw [readToken_plain plain]
        exact marker _ rfl k _

/-- A reader that looks at the next character and leaves it. -/
theorem stops_peek (at_ : StopsFor m [] K fun k inp => next k (m,inp))
    (item : ∀ x left, left.length < front.length → StopsFor m (x :: left) K fun k inp => next k (x,inp)) :
    StopsFor m front K fun k inp => jsonPeek inp >>= next k := by
  induction front with
  | nil =>
    refine at_.after (Nat.le_refl _) fun k behind => ?_
    simp [jsonPeek,marker_space boundary]
  | cons x left ih =>
    by_cases white : isSpace x = true
    · refine (ih fun y rest short => item y rest (Nat.lt_succ_of_lt short)).after (Nat.le_succ _) fun k behind => ?_
      simp [jsonPeek,white]
    · refine (item x left (Nat.lt_succ_self _)).after (Nat.le_refl _) fun k behind => ?_
      simp [jsonPeek,white]

omit boundary in
theorem stops_tail {x : Item} (value : α) : StopsFor m (x :: front) K fun _ inp => (pure (value,inp.tail) : Code (α × Input)) :=
  .inr ⟨(value,front),Nat.le_succ _,fun _ _ _ => rfl⟩

theorem jsonTestChar_stops (x : UInt8) : StopsFor m front K fun _ => jsonTestChar x := by
  refine stops_token boundary (fun y marker k inp => ?_) fun ch left _ => ?_
  · simp [marker_byte marker]
  · by_cases same : ch = x
    · simp only [same,if_true]
      exact stops_done
    · simp only [Item.byte.injEq,same,if_false]
      exact .raise fun _ _ => rfl

theorem testUll_stops : StopsFor m front K fun _ => testUll :=
  StopsFor.bind_rest (jsonTestChar_stops boundary _) fun _ _ => StopsFor.bind_rest (jsonTestChar_stops boundary _) fun _ _ =>
    jsonTestChar_stops boundary _

theorem readWhitespace_stops : StopsFor m front K fun _ => readWhitespace :=
  stops_peek boundary stops_done fun _ _ _ => stops_done

end Primitives

section Strings

variable (boundary : m.marker = true)

include boundary

theorem readHexDigit_stops : StopsFor m front K fun _ => readHexDigit := by
  refine stops_stream boundary (fun x marker k inp => ?_) fun ch left _ => ?_
  · cases x with
    | byte ch => cases marker
    | eom | eos => rfl
  · exact StopsFor.ite (fun _ => stops_pure _) fun _ => StopsFor.ite (fun _ => stops_pure _) fun _ =>
      StopsFor.ite (fun _ => stops_pure _) fun _ => .raise fun _ _ => rfl

theorem readHexChar_stops : StopsFor m front K fun _ => readHexChar :=
  StopsFor.bind_value (readHexDigit_stops boundary) fun _ _ _ => StopsFor.bind_value (readHexDigit_stops boundary) fun _ _ _ =>
    StopsFor.bind_value (readHexDigit_stops boundary) fun _ _ _ => StopsFor.bind_value (readHexDigit_stops boundary) fun _ _ _ =>
      stops_pure _

theorem readEscChar_stops : StopsFor m front K fun _ => readEscChar := by
  refine stops_stream boundary (fun x marker k inp => ?_) fun ch left _ => ?_
  · cases x with
    | byte ch => cases marker
    | eom | eos => rfl
  · dsimp only
    rcases escaped ch with _ | _ | form
    · exact .raise fun _ _ => rfl
    · refine StopsFor.bind_value (readHexChar_stops boundary) fun _ _ _ => ?_
      dsimp only
      exact stops_pure _
    · exact stops_pure _

/-- Each turn of the loop takes a byte. -/
theorem readText_stops {τ : Type} (emit : τ → UInt8 → τ) (st : τ) :
    StopsFor m front (fun p : κ × Nat => K p.1 ∧ front.length < p.2) fun p => readText emit p.2 st := by
  induction h : front.length using Nat.strongRecOn generalizing front st with
  | ind n ih =>
    refine StopsFor.turn (stops_stream boundary (fun x marker k inp => ?_) fun ch left short => ?_)
    · cases x with
      | byte ch => cases marker
      | eom | eos => rfl
    · have shorter {left' : Input} (le : left'.length ≤ left.length) (st : τ) :
          StopsFor m left' (fun p : κ × Nat => K p.1 ∧ n ≤ p.2) fun p => readText emit p.2 st :=
        (ih left'.length (by omega) st rfl).weaken fun p inside => ⟨inside.1,by omega⟩
      refine StopsFor.ite (fun _ => stops_pure _) fun _ => StopsFor.ite (fun _ => ?_) fun _ => shorter (Nat.le_refl _) _
      exact StopsFor.bind_value (readEscChar_stops boundary) fun _ _ le => shorter le _

/-- `null`, or what an opening character is in front of. -/
theorem stops_opening {c d : Prop} [Decidable c] [Decidable d] {null : α} {value : κ → Input → Code (α × Input)}
    (inside : StopsFor m front K value) : StopsFor m front K fun k inp =>
      if c then testUll inp >>= fun inp => pure (null,inp) else if d then .error .exception else value k inp :=
  StopsFor.ite (fun _ => StopsFor.bind_rest (testUll_stops boundary) fun _ _ => stops_pure _) fun _ =>
    StopsFor.ite (fun _ => .raise fun _ _ => rfl) fun _ => inside

theorem jsonReadString_stops (str : List UInt8) : StopsFor m front K fun _ inp => jsonReadString inp str := by
  refine stops_token boundary (fun x marker k inp => ?_) fun ch left _ => ?_
  · simp [marker_byte marker]
  · refine stops_opening boundary ?_
    exact StopsFor.bind_value (.loop (fun _ fuel => readText Copying.emit fuel _) (readText_stops boundary _ _)) fun _ _ _ =>
      stops_pure _

theorem jsonReadAllocString_stops : StopsFor m front K fun _ => jsonReadAllocString := by
  refine stops_token boundary (fun x marker k inp => ?_) fun ch left _ => ?_
  · simp [marker_byte marker]
  · refine stops_opening boundary ?_
    exact StopsFor.bind_value (.loop (fun _ fuel => readText bufAdd fuel _) (readText_stops boundary _ _)) fun _ _ _ => stops_pure _

theorem readElement_stops (st : Strings) : StopsFor m front K fun _ => readElement st := by
  refine stops_token boundary (fun x marker k inp => ?_) fun ch left _ => ?_
  · simp [marker_byte marker]
  · refine stops_opening boundary ?_
    exact StopsFor.bind_value (.loop (fun _ fuel => readText bufAdd fuel _) (readText_stops boundary _ _)) fun _ _ _ => stops_pure _

theorem readElements_stops (st : Strings) :
    StopsFor m front (fun p : κ × Nat => K p.1 ∧ front.length < p.2) fun p => readElements p.2 st := by
  induction h : front.length using Nat.strongRecOn generalizing front st with
  | ind n ih =>
    refine StopsFor.turn (StopsFor.bind_value (readElement_stops boundary st) fun st' left le => ?_)
    refine stops_token boundary (fun x marker k inp => ?_) fun ch left' short => ?_
    · simp [marker_byte marker]
    · refine StopsFor.ite (fun _ => ?_) fun _ => StopsFor.ite (fun _ => stops_pure _) fun _ => .raise fun _ _ => rfl
      exact (ih left'.length (by omega) st' rfl).weaken fun p inside => ⟨inside.1,by omega⟩

theorem jsonReadAllocStringArray_stops : StopsFor m front K fun _ => jsonReadAllocStringArray := by
  refine stops_token boundary (fun x marker k inp => ?_) fun ch left _ => ?_
  · simp [marker_byte marker]
  · refine stops_opening boundary ?_
    have elements {left : Input} : StopsFor m left K fun _ inp =>
        readElements (inp.length + 1) ⟨[],[]⟩ inp >>= fun read => pure (some read.1.array,read.2) :=
      StopsFor.bind_value (.loop (fun _ fuel => readElements fuel _) (readElements_stops boundary _)) fun st _ _ => stops_pure (some st.array)
    refine stops_peek boundary ?_ fun x left _ => StopsFor.ite (fun _ => ?_) fun _ => elements
    · simp only [marker_byte boundary,if_false]
      exact elements
    · exact stops_tail _

end Strings

section Numbers

variable (boundary : m.marker = true)

include boundary

theorem readDigits_stops (res : Nat) : StopsFor m front K fun _ => readDigits res := by
  induction front generalizing res with
  | nil =>
    refine .inr ⟨(res,[]),Nat.le_refl _,fun k _ behind => ?_⟩
    cases m with
    | byte ch => cases boundary
    | eom | eos => rfl
  | cons x left ih =>
    cases x with
    | byte ch =>
      by_cases out : ch < 0x30 ∨ ch > 0x39
      · refine .inr ⟨(res,.byte ch :: left),Nat.le_refl _,fun k _ behind => ?_⟩
        simp only [List.cons_append,readDigits,if_pos out]
        rfl
      · refine (ih ((res * 10 + (ch.toNat - 0x30)) % 2^64)).after (Nat.le_succ _) fun k behind => ?_
        simp only [List.cons_append,readDigits,if_neg out]
    | eom | eos => exact .inr ⟨(res,_ :: left),Nat.le_refl _,fun _ _ _ => rfl⟩

theorem jsonReadUlong_stops : StopsFor m front K fun _ => jsonReadUlong := by
  have digits (neg : Bool) {left : Input} (ch : UInt8) : StopsFor m left K fun _ inp =>
      (if ch < 0x30 ∨ ch > 0x39 then .error .exception
      else readDigits (ch.toNat - 0x30) inp >>= fun read =>
        pure (if neg then (2^64 - read.1) % 2^64 else read.1,read.2) : Code (Nat × Input)) :=
    StopsFor.ite (fun _ => .raise fun _ _ => rfl) fun _ => StopsFor.bind_value (readDigits_stops boundary _) fun res _ _ => stops_pure (if neg then (2^64 - res) % 2^64 else res)
  refine stops_token boundary (fun x marker k inp => ?_) fun ch left _ => ?_
  · cases x with
    | byte ch => cases marker
    | eom | eos => rfl
  · by_cases minus : ch = 0x2d
    · subst minus
      refine stops_stream boundary (fun x marker k inp => ?_) fun ch left _ => digits _ ch
      cases x with
      | byte ch => cases marker
      | eom | eos => rfl
    · simp only [readSign,Item.byte.injEq,minus,if_false,Code.pure_eq,Code.ok_bind]
      exact digits _ ch

theorem jsonReadUint64_stops : StopsFor m front K fun _ => jsonReadUint64 :=
  StopsFor.bind_value (jsonReadUlong_stops boundary) fun _ _ _ => stops_pure _

theorem jsonReadLong_stops : StopsFor m front K fun _ => jsonReadLong :=
  StopsFor.bind_value (jsonReadUlong_stops boundary) fun _ _ _ => stops_pure _

theorem jsonReadBoolean_stops : StopsFor m front K fun _ => jsonReadBoolean := by
  refine stops_token boundary (fun x marker k inp => ?_) fun ch left _ => ?_
  · simp [marker_byte marker]
  · refine StopsFor.ite (fun _ => ?_) fun _ => StopsFor.ite (fun _ => ?_) fun _ => .raise fun _ _ => rfl
    · exact StopsFor.bind_rest (jsonTestChar_stops boundary _) fun _ _ => StopsFor.bind_rest (jsonTestChar_stops boundary _) fun _ _ =>
        StopsFor.bind_rest (jsonTestChar_stops boundary _) fun _ _ => stops_pure _
    · exact StopsFor.bind_rest (jsonTestChar_stops boundary _) fun _ _ => StopsFor.bind_rest (jsonTestChar_stops boundary _) fun _ _ =>
        StopsFor.bind_rest (jsonTestChar_stops boundary _) fun _ _ => StopsFor.bind_rest (jsonTestChar_stops boundary _) fun _ _ =>
          stops_pure _

end Numbers

section Structures

variable {τ : Type} {item : τ → Input → Code (τ × Input)} (boundary : m.marker = true)

include boundary

theorem readSeparated_stops (close : UInt8) (items : ∀ st front, StopsAt m front (item st)) (st : τ) :
    StopsFor m front (fun p : κ × Nat => K p.1 ∧ front.length < p.2) fun p => readSeparated close item p.2 st := by
  induction h : front.length using Nat.strongRecOn generalizing front st with
  | ind n ih =>
    refine StopsFor.turn (StopsFor.bind_value (items st front).stops fun st' left le => ?_)
    refine stops_token boundary (fun x marker k inp => ?_) fun ch left' short => ?_
    · simp [marker_byte marker]
    · refine StopsFor.ite (fun _ => ?_) fun _ => StopsFor.ite (fun _ => stops_pure _) fun _ => .raise fun _ _ => rfl
      exact (ih left'.length (by omega) st' rfl).weaken fun p inside => ⟨inside.1,by omega⟩

theorem readBracketed_stops (opening close : UInt8) (items : ∀ st front, StopsAt m front (item st)) (st : τ) :
    StopsFor m front K fun _ => readBracketed opening close item st := by
  refine stops_token boundary (fun x marker k inp => ?_) fun ch left _ => ?_
  · simp [marker_byte marker]
  · refine stops_opening boundary ?_
    have elements {left : Input} : StopsFor m left K fun _ inp =>
        readSeparated close item (inp.length + 1) st inp >>= fun read => pure ((true,read.1),read.2) :=
      StopsFor.bind_value (.loop (fun _ fuel => readSeparated close item fuel st) (readSeparated_stops boundary close items st))
        fun st _ _ => stops_pure (true,st)
    refine stops_peek boundary ?_ fun x left _ => StopsFor.ite (fun _ => stops_tail _) fun _ => elements
    simp only [marker_byte boundary,if_false]
    exact elements

theorem readName_stops : StopsFor m front K fun _ => readName :=
  StopsFor.bind_value (jsonReadString_stops boundary _) fun _ _ _ => StopsFor.bind_rest (readWhitespace_stops boundary) fun _ _ =>
    StopsFor.bind_rest (jsonTestChar_stops boundary _) fun _ _ => stops_pure _

theorem readMember_stops {callBack : List UInt8 → τ → Input → Code (τ × Input)}
    (members : ∀ name st front, StopsAt m front (callBack name st)) (st : τ) (front : Input) :
    StopsAt m front (readMember callBack st) := by
  refine StopsFor.bind_value (readName_stops boundary) fun name left _ => ?_
  exact members name st left

theorem jsonReadStruct_stops {callBack : List UInt8 → τ → Input → Code (τ × Input)}
    (members : ∀ name st front, StopsAt m front (callBack name st)) (st : τ) :
    StopsFor m front K fun _ => jsonReadStruct callBack st :=
  readBracketed_stops boundary _ _ (readMember_stops boundary members) st

theorem jsonReadArray_stops (items : ∀ st front, StopsAt m front (item st)) (st : τ) :
    StopsFor m front K fun _ => jsonReadArray item st := readBracketed_stops boundary _ _ items st

end Structures

section Objects

variable (boundary : m.marker = true)

include boundary

theorem stops_skipChar {next : κ → (UInt8 × List UInt8) × Input → Code ρ} {buf : List UInt8}
    (byte : ∀ ch left, left.length < front.length → StopsFor m left K fun k inp => next k ((ch,bufAdd buf ch),inp)) :
    StopsFor m front K fun k inp => skipChar buf inp >>= next k := by
  simp only [skipChar,bind_assoc]
  refine stops_stream boundary (fun x marker k inp => ?_) byte
  cases x with
  | byte ch => cases marker
  | eom | eos => rfl

theorem stops_skipToken {next : κ → (UInt8 × List UInt8) × Input → Code ρ} {buf : List UInt8}
    (byte : ∀ ch left, left.length < front.length → StopsFor m left K fun k inp => next k ((ch,bufAdd buf ch),inp)) :
    StopsFor m front K fun k inp => skipToken buf inp >>= next k := by
  simp only [skipToken,bind_assoc]
  exact StopsFor.bind_rest (readWhitespace_stops boundary) fun left le => stops_skipChar boundary fun ch left' short =>
    byte ch left' (Nat.lt_of_lt_of_le short le)

theorem skipChars_stops (xs buf : List UInt8) : StopsFor m front K fun _ => skipChars xs buf := by
  induction xs generalizing front buf with
  | nil => exact stops_pure _
  | cons x xs ih =>
    exact stops_skipChar boundary fun ch left _ => StopsFor.ite (fun _ => ih _) fun _ => .raise fun _ _ => rfl

theorem skipString_stops (buf : List UInt8) :
    StopsFor m front (fun p : κ × Nat => K p.1 ∧ front.length < p.2) fun p => skipString p.2 buf := by
  induction h : front.length using Nat.strongRecOn generalizing front buf with
  | ind n ih =>
    have shorter {left : Input} (short : left.length < front.length) (buf : List UInt8) :
        StopsFor m left (fun p : κ × Nat => K p.1 ∧ n ≤ p.2) fun p => skipString p.2 buf :=
      (ih left.length (by omega) buf rfl).weaken fun p inside => ⟨inside.1,by omega⟩
    refine StopsFor.turn (stops_skipChar boundary fun ch left short => ?_)
    refine StopsFor.ite (fun _ => stops_pure _) fun _ => StopsFor.ite (fun _ => ?_) fun _ => shorter short _
    exact stops_skipChar boundary fun ch left' short' => shorter (Nat.lt_trans short' short) _

theorem skipNumber_stops (buf : List UInt8) :
    StopsFor m front (fun p : κ × Nat => K p.1 ∧ front.length < p.2) fun p => skipNumber p.2 buf := by
  induction front generalizing buf with
  | nil =>
    refine StopsFor.turn (.inr ⟨(buf,[]),Nat.le_refl _,fun p _ behind => ?_⟩)
    cases m with
    | byte ch => cases boundary
    | eom | eos => rfl
  | cons x left ih =>
    refine StopsFor.turn ?_
    by_cases number : isNumberChar x = true
    · cases x with
      | byte ch =>
        refine ((ih (bufAdd buf ch)).weaken fun p inside => inside).after (Nat.le_succ _) fun p behind => ?_
        simp only [List.cons_append,skipNumber,peekStream,Code.ok_bind,number,if_true,skipChar,readStream,Code.pure_eq]
      | eom | eos => cases number
    · refine .inr ⟨(buf,x :: left),Nat.le_refl _,fun p _ behind => ?_⟩
      simp only [List.cons_append,skipNumber,peekStream,Code.ok_bind,if_neg number]
      rfl

theorem skipBytes_stops (size : Nat) (buf : List UInt8) : StopsFor m front K fun _ => skipBytes size buf := by
  induction size generalizing front buf with
  | zero => exact stops_pure _
  | succ size ih => exact stops_skipChar boundary fun ch left _ => ih _

theorem skipBlock_stops (buf : List UInt8) : StopsFor m front K fun _ => skipBlock buf :=
  StopsFor.bind_value (jsonReadUlong_stops boundary) fun _ _ _ => stops_skipChar boundary fun _ _ _ =>
    StopsFor.ite (fun _ => skipBytes_stops boundary _ _) fun _ => .raise fun _ _ => rfl

section Items

variable {item : κ → List UInt8 → Input → Code (List UInt8 × Input)} {limit : Nat}

theorem skipSeparated_stops (close : UInt8) (items : ∀ buf left, left.length ≤ limit → StopsFor m left K fun k => item k buf)
    (inside : front.length ≤ limit) (buf : List UInt8) :
    StopsFor m front (fun p : κ × Nat => K p.1 ∧ front.length < p.2) fun p => skipSeparated close (item p.1) p.2 buf := by
  induction h : front.length using Nat.strongRecOn generalizing front buf with
  | ind n ih =>
    refine StopsFor.turn (StopsFor.bind_value ((items buf front inside).comap Prod.fst fun p => And.left) fun buf left le => ?_)
    refine stops_skipToken boundary fun ch left' short => ?_
    refine StopsFor.ite (fun _ => ?_) fun _ => StopsFor.ite (fun _ => stops_pure _) fun _ => .raise fun _ _ => rfl
    exact (ih left'.length (by omega) (by omega) _ rfl).weaken fun p inside => ⟨inside.1,by omega⟩

theorem skipBracketed_stops (close : UInt8) (items : ∀ buf left, left.length ≤ limit → StopsFor m left K fun k => item k buf)
    (inside : front.length ≤ limit) (buf : List UInt8) :
    StopsFor m front K fun k => skipBracketed close (item k) buf := by
  refine stops_peek boundary ?_ fun x left short => StopsFor.ite (fun _ => ?_) fun _ => ?_
  · simp only [marker_byte boundary,if_false]
    exact .loop (fun k fuel => skipSeparated close (item k) fuel buf)
      (skipSeparated_stops boundary close items (Nat.zero_le _) buf)
  · exact stops_skipChar boundary fun _ _ _ => stops_pure _
  · exact .loop (fun k fuel => skipSeparated close (item k) fuel buf)
      (skipSeparated_stops boundary close items (by rw [List.length_cons]; omega) buf)

theorem skipMember_stops (items : ∀ buf left, left.length ≤ limit → StopsFor m left K fun k => item k buf)
    (inside : front.length ≤ limit) (buf : List UInt8) : StopsFor m front K fun k => skipMember (item k) buf := by
  refine StopsFor.bind_value (items buf front inside) fun buf left le => stops_skipToken boundary fun ch left' short => ?_
  exact StopsFor.ite (fun _ => items _ left' (by omega)) fun _ => .raise fun _ _ => rfl

end Items

theorem skipObject_stops (buf : List UInt8) :
    StopsFor m front (fun p : κ × Nat => K p.1 ∧ front.length < p.2) fun p => skipObject p.2 buf := by
  induction h : front.length using Nat.strongRecOn generalizing front buf with
  | ind n ih =>
    refine StopsFor.turn (stops_skipToken boundary fun ch left short => ?_)
    have inner (buf : List UInt8) (left' : Input) (le : left'.length ≤ left.length) :
        StopsFor m left' (fun p : κ × Nat => K p.1 ∧ n ≤ p.2) fun p => skipObject p.2 buf :=
      (ih left'.length (by omega) buf rfl).weaken fun p inside => ⟨inside.1,by omega⟩
    refine StopsFor.ite (fun _ => skipChars_stops boundary _ _) fun _ => ?_
    refine StopsFor.ite (fun _ => skipChars_stops boundary _ _) fun _ => ?_
    refine StopsFor.ite (fun _ => skipChars_stops boundary _ _) fun _ => ?_
    let K' (p : κ × Nat) : Prop := K p.1 ∧ n ≤ p.2
    refine StopsFor.ite (fun _ => .loop (fun _ fuel => skipString fuel _) (skipString_stops (K := K') boundary _)) fun _ => ?_
    refine StopsFor.ite (fun _ => .loop (fun _ fuel => skipNumber fuel _) (skipNumber_stops (K := K') boundary _)) fun _ => ?_
    refine StopsFor.ite (fun _ => skipBracketed_stops boundary _ inner (Nat.le_refl _) _) fun _ => ?_
    refine StopsFor.ite (fun _ => ?_) fun _ => StopsFor.ite (fun _ => skipBlock_stops boundary _) fun _ => .raise fun _ _ => rfl
    exact skipBracketed_stops boundary _ (fun buf left' le => skipMember_stops boundary inner le buf) (Nat.le_refl _) _

theorem jsonReadObject_stops : StopsFor m front K fun _ => jsonReadObject :=
  StopsFor.bind_value (.loop (fun _ fuel => skipObject fuel _) (skipObject_stops boundary _)) fun _ _ _ => stops_pure _

theorem jsonSkipObject_stops : StopsFor m front K fun _ => jsonSkipObject :=
  StopsFor.bind_value (.loop (fun _ fuel => skipObject fuel _) (skipObject_stops boundary _)) fun _ _ _ => stops_done

end Objects

section Readers

variable (boundary : m.marker = true)

include boundary

theorem readDoubleChars_stops (buf : List UInt8) :
    StopsFor m front (fun p : κ × Nat => K p.1 ∧ front.length < p.2) fun p => readDoubleChars p.2 buf := by
  induction front generalizing buf with
  | nil =>
    refine StopsFor.turn (.inr ⟨(buf,[]),Nat.le_refl _,fun p _ behind => ?_⟩)
    cases m with
    | byte ch => cases boundary
    | eom | eos => rfl
  | cons x left ih =>
    refine StopsFor.turn ?_
    by_cases number : isNumberChar x = true
    · by_cases full : buf.length ≥ 255
      · refine .inl fun p _ behind => ?_
        simp only [List.cons_append,readDoubleChars,peekStream,Code.ok_bind,number,if_true,if_pos full]
      · refine ((ih (bufAdd buf x.char)).weaken fun p inside => inside).after (Nat.le_succ _) fun p behind => ?_
        simp only [List.cons_append,readDoubleChars,peekStream,Code.ok_bind,number,if_true,if_neg full,readStream]
    · refine .inr ⟨(buf,x :: left),Nat.le_refl _,fun p _ behind => ?_⟩
      simp only [List.cons_append,readDoubleChars,peekStream,Code.ok_bind,if_neg number]
      rfl

theorem jsonReadDouble_stops {δ : Type} (strToDouble : List UInt8 → δ × Nat) :
    StopsFor m front K fun _ => jsonReadDouble strToDouble := by
  refine StopsFor.bind_rest (readWhitespace_stops boundary) fun left _ => ?_
  refine StopsFor.bind_value (.loop (fun _ fuel => readDoubleChars fuel _) (readDoubleChars_stops boundary _)) fun buf left' _ => ?_
  exact StopsFor.ite (fun _ => .raise fun _ _ => rfl) fun _ => StopsFor.ite (fun _ => .raise fun _ _ => rfl) fun _ => stops_pure _

theorem readErrnoParam_stops (err : ErrorReport) (front : Input) : StopsAt m front (readErrnoParam err) :=
  StopsFor.bind_value (jsonReadObject_stops boundary) fun _ _ _ => stops_pure _

theorem readErrorMember_stops (name : List UInt8) (err : Option ErrorReport) (front : Input) :
    StopsAt m front (readErrorMember name err) := by
  have code : StopsAt m front jsonReadInt :=
    StopsFor.bind_value (jsonReadLong_stops boundary) fun _ _ _ => stops_pure _
  refine StopsFor.ite (fun _ => StopsFor.bind_value code fun _ _ _ => stops_pure _) fun _ => ?_
  refine StopsFor.ite (fun _ => StopsFor.bind_value (jsonReadUint64_stops boundary) fun _ _ _ => stops_pure _) fun _ => ?_
  refine StopsFor.ite (fun _ => StopsFor.bind_value (jsonReadAllocString_stops boundary) fun _ _ _ => stops_pure _) fun _ => ?_
  refine StopsFor.ite (fun _ => ?_) fun _ => StopsFor.bind_value (jsonReadObject_stops boundary) fun _ _ _ => stops_pure _
  exact StopsFor.bind_value (jsonReadArray_stops boundary (readErrnoParam_stops boundary) _) fun _ _ _ => stops_pure _

theorem readErrorObject_stops (setErrno : ErrorReport → Nat) : StopsFor m front K fun _ => readErrorObject setErrno := by
  refine StopsFor.bind_value (jsonReadStruct_stops boundary (readErrorMember_stops boundary) none) fun read left _ => ?_
  obtain ⟨_,_ | err⟩ := read
  · exact stops_pure _
  · exact stops_pure _

theorem readErrno_stops (setErrno : ErrorReport → Nat) :
    StopsFor m front K fun _ => CodeAreas.readErrno (readErrorObject setErrno) := by
  have ending {left : Input} (no : Nat) : StopsFor m left K fun _ inp => (do
      let inp ← jsonTestChar 0 inp
      pure (no,inp) : Code (Nat × Input)) := StopsFor.bind_rest (jsonTestChar_stops boundary _) fun _ _ => stops_pure _
  have report {left : Input} : StopsFor m left K fun _ inp => readErrorObject setErrno inp >>= fun read =>
      jsonTestChar 0 read.2 >>= fun inp => pure (read.1,inp) := StopsFor.bind_value (readErrorObject_stops boundary _) fun no _ _ => ending no
  refine stops_peek boundary ?_ fun x left _ => ?_
  · simp only [ne_eq,marker_byte boundary,not_false_eq_true,if_true]
    exact report
  · by_cases eoa : x = .byte 0
    · simp only [eoa,ne_eq,not_true,if_false,Code.pure_eq,Code.ok_bind]
      exact ending 0
    · simp only [ne_eq,eoa,not_false_eq_true,if_true]
      exact report

end Readers

end Tcf.Json
