import Tcf.JsonStruct

/-! Values that go from a writer to a reader. Unlike that of `Appends`, the text may depend on the stream, as that of
binary data does; it is the same for all states `i` that the reader can be in. -/
namespace Tcf.Json

open Framing

/-- A text that ends a number in front of it. -/
def Stops (text : Input) : Prop := text = [] ∨ ∃ ch rest, text = .byte ch :: rest ∧ (ch < 0x30 ∨ ch > 0x39)

/-- Any text. -/
def Any (_ : Input) : Prop := True

theorem any_append (front back : Input) (_ : Any front) : Any (front ++ back) := trivial

theorem begins_append (front back : Input) (begins : Begins front) : Begins (front ++ back) := by
  obtain ⟨ch,rest,rfl,plain,no_brace,no_bracket⟩ := begins
  exact ⟨ch,rest ++ back,rfl,plain,no_brace,no_bracket⟩

theorem stops_comma (text : Input) : Stops (.byte comma :: text) := .inr ⟨comma,text,rfl,by decide⟩

theorem stops_eoa (text : Input) : Stops (.byte 0 :: text) := .inr ⟨0,text,rfl,by decide⟩

section Carrying

variable {σ ι α β : Type} (S : OutStream σ)

/-- What `write` adds is read as `value`; `P` says how the text begins. -/
def Carried (P : Input → Prop) (write : σ → Code σ) (read : ι → Input → Code (α × Input)) (value : ι → α) : Prop :=
  ∀ s items, S.Holds s items →
    ∃ next text, write s = .ok next ∧ S.Holds next (items ++ text) ∧ P text ∧ ∀ i, Reads (read i) text (value i)

variable {S} {P : Input → Prop} {write write' : σ → Code σ} {read : ι → Input → Code (α × Input)} {value : ι → α}

theorem carried_text {text : Input} (appends : Appends S write text) (begins : P text) (reads : ∀ i, Reads (read i) text (value i)) :
    Carried S P write read value := by
  intro s items holds
  obtain ⟨next,run,holds'⟩ := appends s items holds
  exact ⟨next,text,run,holds',begins,reads⟩

theorem carried_map (f : ι → α → β) (carried : Carried S P write read value) :
    Carried S P write (fun i inp => do let (value,inp) ← read i inp; pure (f i value,inp)) (fun i => f i (value i)) := by
  intro s items holds
  obtain ⟨next,text,run,holds',begins,reads⟩ := carried s items holds
  exact ⟨next,text,run,holds',begins,fun i => reads_map (f i) (reads i)⟩

theorem carried_any (carried : Carried S P write read value) : Carried S Any write read value := by
  intro s items holds
  obtain ⟨next,text,run,holds',_,reads⟩ := carried s items holds
  exact ⟨next,text,run,holds',trivial,reads⟩

/-- Nothing is written and nothing read. -/
theorem carried_nothing (value : ι → α) : Carried S Stops pure (fun i inp => pure (value i,inp)) value :=
  carried_text appends_nothing (.inl rfl) fun _ _ _ _ => rfl

theorem reads_bind {read : Input → Code (α × Input)} {next : α × Input → Code (β × Input)} {text text' : Input} {value : α}
    {value' : β} (first : Reads read text value) (second : Reads (fun inp => next (value,inp)) text' value') (stops : Stops text') :
    Reads (fun inp => read inp >>= next) (text ++ text') value' := by
  intro stop rest out
  have ended : ∃ ch more, text' ++ .byte stop :: rest = .byte ch :: more ∧ (ch < 0x30 ∨ ch > 0x39) := by
    rcases stops with rfl | ⟨ch,more,rfl,out'⟩
    · exact ⟨stop,rest,rfl,out⟩
    · exact ⟨ch,more ++ .byte stop :: rest,rfl,out'⟩
  obtain ⟨ch,more,split,out'⟩ := ended
  simp only [List.append_assoc,split,first ch more out',Code.ok_bind]
  rw [← split]
  exact second stop rest out

/-- A value and what follows it. -/
theorem carried_bind {next : ι → α × Input → Code (β × Input)} {value' : ι → β} (more : ∀ front back, P front → P (front ++ back))
    (first : Carried S P write read value) (second : Carried S Stops write' (fun i inp => next i (value i,inp)) value') :
    Carried S P (fun s => write s >>= write') (fun i inp => read i inp >>= next i) value' := by
  intro s items holds
  obtain ⟨s₁,text,run,holds₁,begins,reads⟩ := first s items holds
  obtain ⟨s₂,text',run',holds₂,stops,reads'⟩ := second s₁ _ holds₁
  refine ⟨s₂,text ++ text',?_,by simpa using holds₂,more text text' begins,fun i => reads_bind (reads i) (reads' i) stops⟩
  simp only [run,Code.ok_bind]
  exact run'

theorem jsonTestChar_plain {ch : UInt8} (plain : isSpace (.byte ch) = false) (rest : Input) :
    jsonTestChar ch (.byte ch :: rest) = .ok rest := by
  rw [jsonTestChar,readToken_plain plain,Code.ok_bind]
  exact if_pos rfl

/-- A character in front of a value, which the reader tests. -/
theorem carried_behind {ch : UInt8} (plain : isSpace (.byte ch) = false) (begins : ∀ text, Stops (.byte ch :: text))
    (carried : Carried S Any write read value) :
    Carried S Stops (fun s => do let s ← S.writeByte s ch; write s) (fun i inp => do let inp ← jsonTestChar ch inp; read i inp) value := by
  intro s items holds
  obtain ⟨middle,run,holds₁⟩ := S.writeByte_holds holds ch
  obtain ⟨next,text,run',holds₂,_,reads⟩ := carried middle _ holds₁
  refine ⟨next,.byte ch :: text,?_,by simpa using holds₂,begins text,?_⟩
  · simp only [run,Code.ok_bind]
    exact run'
  · intro i stop rest out
    simp only [List.cons_append,jsonTestChar_plain plain,Code.ok_bind]
    exact reads i stop rest out

theorem carried_comma (carried : Carried S Any write read value) :
    Carried S Stops (fun s => do let s ← S.writeByte s comma; write s)
      (fun i inp => do let inp ← jsonTestChar comma inp; read i inp) value := carried_behind rfl stops_comma carried

/-- The end of an argument. -/
theorem carried_eoa (carried : Carried S Any write read value) :
    Carried S Stops (fun s => do let s ← S.writeByte s 0; write s)
      (fun i inp => do let inp ← jsonTestChar 0 inp; read i inp) value := carried_behind rfl stops_eoa carried

/-- A value that is looked at before it is taken. -/
theorem carried_checked (f : ι → α → β) (bad : α → Prop) [DecidablePred bad] (good : ∀ i, ¬bad (value i))
    (carried : Carried S P write read value) :
    Carried S P write (fun i inp => do
      let (value,inp) ← read i inp
      if bad value then .error .exception else pure (f i value,inp)) (fun i => f i (value i)) := by
  intro s items holds
  obtain ⟨next,text,run,written,begins,reads⟩ := carried s items holds
  refine ⟨next,text,run,written,begins,?_⟩
  intro i stop rest out
  simp only [reads i stop rest out,Code.ok_bind,if_neg (good i),Code.pure_eq]

end Carrying

/-! Items with commas between them. -/

section Items

variable {σ ι τ : Type} (S : OutStream σ)

/-- Texts with commas in front, except for the first when nothing is in front of it. -/
def joined : Nat → List Input → Input
  | _, [] => []
  | cnt, text :: texts => (if cnt > 0 then [.byte comma] else []) ++ text ++ joined (cnt + 1) texts

theorem joined_behind {cnt : Nat} (behind : 0 < cnt) (texts : List Input) :
    joined cnt texts = texts.flatMap (.byte comma :: ·) := by
  induction texts generalizing cnt with
  | nil => rfl
  | cons text texts ih => simp [joined,behind,ih (Nat.succ_pos cnt)]

theorem joined_append (cnt : Nat) (xs ys : List Input) : joined cnt (xs ++ ys) = joined cnt xs ++ joined (cnt + xs.length) ys := by
  induction xs generalizing cnt with
  | nil => rfl
  | cons text texts ih =>
    have count : cnt + 1 + texts.length = cnt + (texts.length + 1) := by omega
    simp [joined,ih,count]

theorem joined_close (close : UInt8) (texts : List Input) : joined 0 texts ++ [.byte close] = separated close texts := by
  cases texts with
  | nil => rfl
  | cons text texts => simp [joined,separated,joined_behind]

/-- Only whether something is in front matters. -/
theorem joined_same {cnt cnt' : Nat} (same : cnt > 0 ↔ cnt' > 0) (texts : List Input) : joined cnt texts = joined cnt' texts := by
  cases texts with
  | nil => rfl
  | cons text texts => simp [joined,joined_behind,same]

/-- Texts of items, each of which the reader takes. -/
def Taken (item : τ → Input → Code (τ × Input)) (st final : ι → τ) (texts : List Input) : Prop :=
  (∀ text ∈ texts, Begins text) ∧ ∀ i, Runs item (st i) texts (final i)

variable {item : τ → Input → Code (τ × Input)} {st middle final : ι → τ} {xs ys : List Input}

theorem taken_nothing (st : ι → τ) : Taken item st st [] := ⟨by simp,fun _ => .nil⟩

theorem taken_cons {text : Input} (begins : Begins text) (reads : ∀ i, Reads (item (st i)) text (middle i))
    (later : Taken item middle final xs) : Taken item st final (text :: xs) :=
  ⟨List.forall_mem_cons.mpr ⟨begins,later.1⟩,fun i => .cons (reads i) (later.2 i)⟩

theorem taken_append (first : Taken item st middle xs) (second : Taken item middle final ys) : Taken item st final (xs ++ ys) :=
  ⟨fun text member => (List.mem_append.mp member).elim (first.1 text) (second.1 text),fun i => (first.2 i).append (second.2 i)⟩

/-- A writer that counts what it has written, and a run of the reader over it. -/
def Listed (write : σ × Nat → Code (σ × Nat)) (item : τ → Input → Code (τ × Input)) (st final : ι → τ) : Prop :=
  ∀ s cnt items, S.Holds s items → ∃ next cnt' texts, write (s,cnt) = .ok (next,cnt') ∧ (cnt' > 0 ↔ cnt + texts.length > 0) ∧
    S.Holds next (items ++ joined cnt texts) ∧ Taken item st final texts

/-- Such a writer when nothing is in front of it. -/
def Started (write : σ × Nat → Code (σ × Nat)) (item : τ → Input → Code (τ × Input)) (st final : ι → τ) : Prop :=
  ∀ s items, S.Holds s items → ∃ next cnt texts, write (s,0) = .ok (next,cnt) ∧ (cnt > 0 ↔ texts.length > 0) ∧
    S.Holds next (items ++ joined 0 texts) ∧ Taken item st final texts

/-- Members that are all behind a first one. -/
def Follows (write : σ → Code σ) (item : τ → Input → Code (τ × Input)) (st final : ι → τ) : Prop :=
  ∀ s items, S.Holds s items → ∃ next texts, write s = .ok next ∧ S.Holds next (items ++ joined 1 texts) ∧ Taken item st final texts

variable {S} {P : Input → Prop} {write write' : σ → Code σ}

theorem listed_bind {write write' : σ × Nat → Code (σ × Nat)} (first : Listed S write item st middle)
    (second : Listed S write' item middle final) : Listed S (fun st => write st >>= write') item st final := by
  intro s cnt items holds
  obtain ⟨s₁,cnt₁,xs,run,count,holds₁,taken⟩ := first s cnt items holds
  obtain ⟨s₂,cnt₂,ys,run',count',holds₂,taken'⟩ := second s₁ cnt₁ _ holds₁
  refine ⟨s₂,cnt₂,xs ++ ys,?_,?_,?_,taken_append taken taken'⟩
  · simp only [run,Code.ok_bind,run']
  · rw [List.length_append]
    omega
  · rw [joined_append,← joined_same count ys,← List.append_assoc]
    exact holds₂

/-- One item, with a comma if others are in front. -/
theorem listed_item (carried : Carried S Begins write (fun i => item (st i)) final) :
    Listed S (fun st => do
      let s ← writeIf (st.2 > 0) (S.writeByte · comma) st.1
      let s ← write s
      pure (s,st.2 + 1)) item st final := by
  intro s cnt items holds
  have behind : Appends S (writeIf (cnt > 0) (S.writeByte · comma)) _ := appends_if fun _ => appends_byte comma
  obtain ⟨s₁,run,holds₁⟩ := behind s items holds
  obtain ⟨s₂,text,run',holds₂,begins,reads⟩ := carried s₁ _ holds₁
  refine ⟨s₂,cnt + 1,[text],?_,Iff.rfl,by simpa [joined] using holds₂,taken_cons begins reads (taken_nothing final)⟩
  simp only [run,Code.ok_bind,run']
  rfl

theorem listed_if {c : Prop} [Decidable c] {write : σ × Nat → Code (σ × Nat)} (listed : c → Listed S write item st final)
    (same : ¬c → final = st) : Listed S (fun st => if c then write st else pure st) item st final := by
  by_cases holds : c
  · simpa only [if_pos holds] using listed holds
  · intro s cnt items held
    rw [same holds]
    exact ⟨s,cnt,[],if_neg holds,by simp,by simpa [joined] using held,taken_nothing st⟩

theorem listed_started {write : σ × Nat → Code (σ × Nat)} (listed : Listed S write item st final) : Started S write item st final := by
  intro s items holds
  obtain ⟨next,cnt,texts,run,count,rest⟩ := listed s 0 items holds
  exact ⟨next,cnt,texts,run,by omega,rest⟩

theorem started_nothing (st : ι → τ) : Started S pure item st st := fun s items holds =>
  ⟨s,0,[],rfl,by simp,by simpa [joined] using holds,taken_nothing st⟩

theorem started_bind {write write' : σ × Nat → Code (σ × Nat)} (first : Started S write item st middle)
    (second : Listed S write' item middle final) : Started S (fun st => write st >>= write') item st final := by
  intro s items holds
  obtain ⟨s₁,cnt₁,xs,run,count,holds₁,taken⟩ := first s items holds
  obtain ⟨s₂,cnt₂,ys,run',count',holds₂,taken'⟩ := second s₁ cnt₁ _ holds₁
  refine ⟨s₂,cnt₂,xs ++ ys,?_,?_,?_,taken_append taken taken'⟩
  · simp only [run,Code.ok_bind,run']
  · rw [List.length_append]
    omega
  · rw [joined_append,Nat.zero_add,← joined_same count ys,← List.append_assoc]
    exact holds₂

theorem follows_bind (first : Follows S write item st middle) (second : Follows S write' item middle final) :
    Follows S (fun s => write s >>= write') item st final := by
  intro s items holds
  obtain ⟨s₁,xs,run,holds₁,taken⟩ := first s items holds
  obtain ⟨s₂,ys,run',holds₂,taken'⟩ := second s₁ _ holds₁
  refine ⟨s₂,xs ++ ys,?_,by simpa [joined_behind] using holds₂,taken_append taken taken'⟩
  simp only [run,Code.ok_bind,run']

theorem follows_if {c : Prop} [Decidable c] (follows : c → Follows S write item st final) (same : ¬c → final = st) :
    Follows S (writeIf c write) item st final := by
  intro s items held
  by_cases holds : c
  · obtain ⟨next,texts,run,rest⟩ := follows holds s items held
    exact ⟨next,texts,(if_pos holds).trans run,rest⟩
  · rw [same holds]
    exact ⟨s,[],if_neg holds,by simpa [joined] using held,taken_nothing st⟩

/-- A struct or an array. -/
theorem carried_bracketed {opening close : UInt8} (brackets : opening = 0x7b ∧ close = 0x7d ∨ opening = 0x5b ∧ close = 0x5d)
    (listed : ∀ s items, S.Holds s items → ∃ next texts, write s = .ok next ∧ S.Holds next (items ++ joined 0 texts) ∧
      Taken item st final texts) :
    Carried S Begins (fun s => do let s ← S.writeByte s opening; let s ← write s; S.writeByte s close)
      (fun i => readBracketed opening close item (st i)) (fun i => (true,final i)) := by
  intro s items holds
  obtain ⟨s₁,run₁,holds₁⟩ := S.writeByte_holds holds opening
  obtain ⟨s₂,texts,run₂,holds₂,begins,runs⟩ := listed s₁ _ holds₁
  obtain ⟨s₃,run₃,holds₃⟩ := S.writeByte_holds holds₂ close
  refine ⟨s₃,.byte opening :: separated close texts,?_,?_,?_,?_⟩
  · simp only [run₁,Code.ok_bind,run₂,run₃]
  · simpa [← joined_close] using holds₃
  · refine ⟨opening,separated close texts,rfl,?_⟩
    rcases brackets with ⟨rfl,_⟩ | ⟨rfl,_⟩
    · exact ⟨rfl,by decide,by decide⟩
    · exact ⟨rfl,by decide,by decide⟩
  · intro i
    cases texts with
    | nil =>
      have same : st i = final i := by
        have run := runs i
        generalize st i = first at run ⊢
        generalize final i = last at run ⊢
        cases run
        rfl
      dsimp only
      rw [← same]
      exact readBracketed_empty brackets item (st i)
    | cons text texts => exact readBracketed_text brackets (begins _ List.mem_cons_self) (runs i)

variable {callBack : List UInt8 → τ → Input → Code (τ × Input)}

/-- A member whose name is any short string. -/
theorem carried_named {name : List UInt8} (short : name.length < 256) (nulFree : 0 ∉ name)
    (carried : Carried S P write (fun i => callBack name (st i)) final) :
    Carried S Begins (fun s => do
      let s ← jsonWriteString S s (name ++ [0])
      let s ← S.writeByte s colon
      write s) (fun i => readMember callBack (st i)) final := by
  intro s items holds
  obtain ⟨s₁,run₁,holds₁⟩ := @appends_quoted σ S name (by omega) nulFree [] s items holds
  obtain ⟨s₂,run₂,holds₂⟩ := S.writeByte_holds holds₁ colon
  obtain ⟨s₃,text,run₃,holds₃,_,reads⟩ := carried s₂ _ holds₂
  refine ⟨s₃,(quoted name).map .byte ++ .byte colon :: text,?_,by simpa using holds₃,?_,?_⟩
  · simp only [run₁,Code.ok_bind,run₂,run₃]
  · exact ⟨quote,(name.flatMap escape ++ [quote]).map .byte ++ .byte colon :: text,by simp [quoted],rfl,by decide,by decide⟩
  · intro i stop rest out
    have whole : (quoted name).map Item.byte ++ .byte colon :: text ++ .byte stop :: rest =
        (quoted name).map .byte ++ .byte colon :: (text ++ .byte stop :: rest) := by simp
    dsimp only
    rw [whole,readMember,readName_bytes short nulFree]
    exact reads i stop rest out

theorem carried_member {name : String} (isName : IsName name)
    (carried : Carried S P write (fun i => callBack (literal name) (st i)) final) :
    Carried S Begins (writeMember S name write) (fun i => readMember callBack (st i)) final := by
  obtain ⟨short,nulFree⟩ := isName
  exact carried_named short nulFree carried

theorem follows_next {name : String} (isName : IsName name)
    (carried : Carried S P write (fun i => callBack (literal name) (st i)) final) :
    Follows S (writeNext S name write) (readMember callBack) st final := by
  intro s items holds
  obtain ⟨s₁,run₁,holds₁⟩ := S.writeByte_holds holds comma
  obtain ⟨s₂,text,run₂,holds₂,begins,reads⟩ := carried_member isName carried s₁ _ holds₁
  refine ⟨s₂,[text],?_,by simpa [joined] using holds₂,taken_cons begins reads (taken_nothing final)⟩
  simp only [writeNext,run₁,Code.ok_bind,run₂]

/-- A first member and others behind it. -/
theorem first_follows (first : Carried S Begins write (fun i => item (st i)) middle) (others : Follows S write' item middle final)
    (s : σ) (items : List Item) (holds : S.Holds s items) :
    ∃ next texts, (write s >>= write') = .ok next ∧ S.Holds next (items ++ joined 0 texts) ∧ texts ≠ [] ∧ Taken item st final texts := by
  obtain ⟨s₁,text,run₁,holds₁,begins,reads⟩ := first s items holds
  obtain ⟨s₂,texts,run₂,holds₂,taken⟩ := others s₁ _ holds₁
  refine ⟨s₂,text :: texts,?_,by simpa [joined] using holds₂,by simp,taken_cons begins reads taken⟩
  simp only [run₁,Code.ok_bind,run₂]

end Items

end Tcf.Json
