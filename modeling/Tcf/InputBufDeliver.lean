import Tcf.InputBufReceive

/-! Delivering: what `ibuf_get_more` returns for each unread token. -/
namespace Tcf.InputBuf

open Framing Circular

/-- Reading an end of message completes the message being handled. -/
def Counter.read (c : Counter) : Item → Counter
  | .eom => { c with
      messageCount := c.messageCount - 1
      handlingMsg := if c.messageCount - 1 = 0 then .idle else .triggered }
  | _ => c

theorem endMessage_eq (b : InputBuf) : endMessage b = .ok (b.setCounter (b.counter.read .eom)) := by
  unfold endMessage
  by_cases last : b.messageCount - 1 = 0
  · have last' : b.counter.messageCount - 1 = 0 := last
    simp only [last,Counter.read,last',ne_eq,not_true,if_false,if_true]
    rw [← last]
    rfl
  · have last' : ¬b.counter.messageCount - 1 = 0 := last
    simp only [Counter.read,if_neg last',ne_eq,last,not_false_eq_true,if_true]
    rw [tcpTriggerMessage_eq (Nat.pos_of_ne_zero last)]
    rfl

theorem setOut_self {b : InputBuf} {m : Mode} (h : b.outFlags = flags m) : b.setOut m = b := by
  unfold setOut
  rw [← h]
  rfl

theorem eq_setOut {next b : InputBuf} {m : Mode} (state : next.outFlags = flags m)
    (same : next.setOut m = b.setOut m) : next = b.setOut m := (setOut_self state).symm.trans same

/-- What reading an item leaves, when the given tokens follow it. -/
structure Reads (int : IntShift) (whole : List UInt8) (b next : InputBuf) (peeking : Bool) (item : Item)
    (rest : List Token) : Prop where
  counter : next.counter = if peeking then b.counter else b.counter.read item
  contents : ∃ lit m, Holds int whole next lit m (if peeking then item.token :: rest else rest) ∧
    next.stop = next.cur + lit ∧ (item.marker = true → lit = 0)
  posted : item = .eom → peeking = false → next.eof = false → next.readPending.isSome

/-- A pointer at the end of the buffer goes to its beginning. -/
def normal (b : InputBuf) (out : Nat) : Nat := if out = b.bufSize then 0 else out

variable {w : Build} {whole : List UInt8} (peeking : Bool) {b : InputBuf} {m : Mode} {toks : List Token}

theorem Holds.normal {out : Nat} (h : Holds w.int whole (seek b out) 0 m toks) :
    Holds w.int whole (seek b (normal b out)) 0 m toks ∧ InputBuf.normal b out < b.bufSize := by
  have inside := h.inside
  have order := h.order
  unfold InputBuf.normal
  split
  · rename_i last
    exact ⟨(h.reset last).2,Nat.lt_of_le_of_lt (Nat.zero_le _) inside⟩
  · rename_i inner
    refine ⟨h,?_⟩
    simp only [seek,place] at inside order
    omega

theorem getMoreStep_normal (out : Nat) :
    getMoreStep w peeking b out = getMoreStep w peeking b (normal b out) := by
  unfold getMoreStep InputBuf.normal
  by_cases last : out = b.bufSize
  · by_cases zero : 0 = b.bufSize
    · simp [last,← zero]
    · simp [last,zero]
  · simp [last]

variable {position : Nat}

theorem getMoreStep_data (low : position < b.bufSize) (more : position ≠ b.inp) :
    getMoreStep w peeking b position = dataAvailable w peeking b position := by
  unfold getMoreStep
  simp only [if_neg (Nat.ne_of_lt low),if_neg more]

/-- A byte that yields nothing is passed over. -/
theorem dataAvailable_silent (position : Nat) (state : b.outFlags = flags m) (valid : m.Valid)
    (silent : (step w.int m (b.buf position)).2 = none) :
    dataAvailable w peeking b position =
      .ok (.again (b.setOut (step w.int m (b.buf position)).1) (position + 1)) := by
  cases m with
  | plain =>
    obtain ⟨esc,count,size⟩ : b.outEsc = false ∧ b.outSizeMode = 0 ∧ b.outDataSize = 0 := by
      simpa [outFlags,flags] using state
    have stuff : b.buf position = ESC := by
      by_contra other
      simp [step,other] at silent
    have next : { b with outEsc := true } = b.setOut .escaped := by
      refine eq_setOut ?_ rfl
      simp only [outFlags,count,size]
      rfl
    unfold dataAvailable
    simp only [step,stuff,if_pos]
    rw [if_neg (by simp [count]),if_neg (by simp [size]),if_neg (by simp [esc]),if_neg (by simp),next]
    rfl
  | escaped =>
    obtain ⟨esc,count,size⟩ : b.outEsc = true ∧ b.outSizeMode = 0 ∧ b.outDataSize = 0 := by
      simpa [outFlags,flags] using state
    have open_ : b.buf position = 3 := by
      simp only [step,escapeStep] at silent
      split at silent <;> first | assumption | cases silent
    unfold dataAvailable
    rw [if_neg (by simp [count]),if_neg (by simp [size]),if_pos esc]
    simp only [open_]
    rfl
  | size groups acc =>
    obtain ⟨esc,count,size⟩ : b.outEsc = false ∧ b.outSizeMode = groups ∧ b.outDataSize = acc := by
      simpa [outFlags,flags] using state
    have some_ : 0 < groups := valid
    unfold dataAvailable
    rw [if_pos (by omega),require_true esc]
    simp only [Code.ok_bind,step,count,size]
    by_cases last : b.buf position &&& 0x80 = 0
    · simp only [if_pos last,setOut,flags_counting,esc]
      rfl
    · simp only [if_neg last,setOut,flags,esc]
      rfl
  | data remaining => simp [step] at silent

theorem plainEnd_spec (buf : Nat → UInt8) (max fuel out : Nat) (within : out ≤ max) :
    out ≤ plainEnd buf max fuel out ∧ plainEnd buf max fuel out ≤ max ∧
      ∀ i, out ≤ i → i < plainEnd buf max fuel out → buf i ≠ ESC := by
  induction fuel generalizing out with
  | zero => exact ⟨Nat.le_refl _,within,fun i low high => absurd high (Nat.not_lt.mpr low)⟩
  | succ fuel ih =>
    unfold plainEnd
    split
    · rename_i more
      obtain ⟨lower,upper,free⟩ := ih (out + 1) (Nat.lt_of_le_of_ne within more.1)
      refine ⟨by omega,upper,?_⟩
      intro i low high
      rcases Nat.eq_or_lt_of_le low with rfl | later
      · exact more.2
      · exact free i later high
    · exact ⟨Nat.le_refl _,within,fun i low high => absurd high (Nat.not_lt.mpr low)⟩

/-- Bytes up to `inp`, or to the end of the buffer when `inp` has wrapped. -/
def runLimit (b : InputBuf) (position : Nat) : Nat := if position + 1 ≤ b.inp then b.inp else b.bufSize

theorem runLimit_spec (low : position < b.bufSize) (more : position ≠ b.inp) :
    position < runLimit b position ∧ ∀ count, position + count ≤ runLimit b position →
      position + count ≤ b.inp ∨ (b.inp < position ∧ position + count ≤ b.bufSize) := by
  unfold runLimit
  split
  · exact ⟨by omega,fun count fits => .inl fits⟩
  · exact ⟨low,fun count fits => .inr ⟨by omega,fits⟩⟩

/-- A run of literal bytes is found, and its first byte delivered. -/
theorem got_literal {count : Nat} {next : Mode} (h : Holds w.int whole (seek b position) 0 m toks)
    (positive : 0 < count)
    (order : position + count ≤ b.inp ∨ (b.inp < position ∧ position + count ≤ b.bufSize))
    (last : after w.int m (slice b.buf b.bufSize position count) = next)
    (out : tokens w.int m (slice b.buf b.bufSize position count) =
      (slice b.buf b.bufSize position count).map .byte) :
    ∃ result rest, toks = .byte (b.buf position) :: rest ∧
      got (place (setOut b next) (if peeking then position else position + 1) (position + count))
        (.byte (b.buf position)) = .ok (.got result (.byte (b.buf position))) ∧
      Reads w.int whole b result peeking (.byte (b.buf position)) rest := by
  obtain ⟨fewer,rfl⟩ : ∃ fewer, count = fewer + 1 := ⟨count - 1,by omega⟩
  have found := h.literal order last out
  obtain ⟨rest,split,taken,stop⟩ := found.consume
  cases peeking with
  | true =>
    refine ⟨poll (place (setOut b next) position _),rest,split,?_,?_,⟨_,_,split ▸ found.poll,
      found.poll_stop rfl,nofun⟩,?_⟩
    · simp only [got,if_true,found.ibufTriggerRead_eq]
      rfl
    · exact poll_counter _
    · intro marker
      cases marker
  | false =>
    refine ⟨poll (place (setOut b next) (position + 1) _),rest,split,?_,?_,⟨_,_,taken.poll,
      taken.poll_stop stop,nofun⟩,?_⟩
    · have trigger := taken.ibufTriggerRead_eq
      simp only [got]
      exact congrArg (· >>= fun b => pure (More.got b _)) trigger
    · exact poll_counter _
    · intro marker
      cases marker

/-- Outside an escape and a length, the next byte is delivered. -/
theorem dataAvailable_byte {ch : UInt8} (h : Holds w.int whole (seek b position) 0 m toks)
    (low : position < b.bufSize) (more : position ≠ b.inp)
    (emits : (step w.int m (b.buf position)).2 = some (.byte ch)) (outside : m ≠ .escaped) :
    ∃ next rest, toks = .byte ch :: rest ∧
      dataAvailable w peeking b position = .ok (.got next (.byte ch)) ∧
      Reads w.int whole b next peeking (.byte ch) rest := by
  obtain ⟨some_,limit⟩ := runLimit_spec low more
  have inside : b.inp < b.bufSize := h.inside
  have state : b.outFlags = flags m := h.outFlags
  cases m with
  | plain =>
    obtain ⟨esc,count,size⟩ : b.outEsc = false ∧ b.outSizeMode = 0 ∧ b.outDataSize = 0 := by
      simpa [outFlags,flags] using state
    have other : b.buf position ≠ ESC := by
      intro stuff
      simp [step,stuff] at emits
    obtain rfl : b.buf position = ch := by simpa [step,other] using emits
    obtain ⟨lower,upper,free⟩ := plainEnd_spec b.buf (runLimit b position)
      (runLimit b position - (position + 1)) (position + 1) some_
    generalize he : plainEnd b.buf (runLimit b position) (runLimit b position - (position + 1))
      (position + 1) = stop at lower upper free
    have order := limit (stop - position) (by omega)
    have plain : ESC ∉ slice b.buf b.bufSize position (stop - position) := by
      intro member
      obtain ⟨i,inside,cell⟩ := List.mem_map.mp member
      have near := List.mem_range.mp inside
      rw [Nat.mod_eq_of_lt (by omega)] at cell
      rcases Nat.eq_zero_or_pos i with rfl | later
      · exact other cell
      · exact free (position + i) (by omega) (by omega) cell
    obtain ⟨last,out⟩ := plain_run w.int _ plain
    obtain ⟨next,rest,split,run,reads⟩ := got_literal peeking h (by omega) order last out
    refine ⟨next,rest,split,?_,reads⟩
    rw [setOut_self state,show position + (stop - position) = stop by omega] at run
    have within : (if peeking then position else position + 1) ≤ stop := by split <;> omega
    unfold dataAvailable
    rw [if_neg (by simp [count]),if_neg (by simp [size]),if_neg (by simp [esc]),if_pos other]
    change (require ((if peeking then position else position + 1) ≤
      plainEnd b.buf (runLimit b position) (runLimit b position - (position + 1)) (position + 1)) >>= _) = _
    subst he
    rw [require_true within]
    exact run
  | escaped => exact absurd rfl outside
  | size groups acc =>
    simp only [step] at emits
    split at emits <;> cases emits
  | data remaining =>
    obtain ⟨esc,count,size⟩ : b.outEsc = false ∧ b.outSizeMode = 0 ∧ b.outDataSize = remaining := by
      simpa [outFlags,flags] using state
    obtain rfl : b.buf position = ch := by simpa [step] using emits
    have positive : 0 < remaining := h.valid
    generalize ht : (if runLimit b position - position < remaining then runLimit b position - position
      else remaining) = taken
    have count_ : 0 < taken ∧ taken ≤ remaining ∧ position + taken ≤ runLimit b position := by
      rw [← ht]
      split <;> omega
    have length : (slice b.buf b.bufSize position taken).length = taken := slice_length ..
    obtain ⟨last,out⟩ := block_run w.int (slice b.buf b.bufSize position taken) remaining positive
      (by omega)
    obtain ⟨next,rest,split,run,reads⟩ := got_literal peeking h count_.1
      (limit taken count_.2.2) last out
    refine ⟨next,rest,split,?_,reads⟩
    rw [← run]
    unfold dataAvailable
    rw [if_neg (by simp [count]),if_pos (by omega),require_true esc,size]
    change got { b with
      outDataSize := remaining - (if runLimit b position - position < remaining then
        runLimit b position - position else remaining)
      cur := _
      stop := position + (if runLimit b position - position < remaining then
        runLimit b position - position else remaining) } _ = _
    rw [ht,length]
    refine congrArg (got · _) ?_
    simp only [place,setOut,flags_counting,← esc,← count]

theorem Counter.read_eof (c : Counter) (item : Item) : (c.read item).eof = c.eof := by
  cases item <;> rfl

theorem Holds.setCounter {lit : Nat} (h : Holds w.int whole b lit m toks) (c : Counter) (same : c.eof = b.eof) :
    Holds w.int whole (b.setCounter c) lit m toks := by
  refine h.transport rfl rfl rfl rfl rfl rfl rfl ?_
  intro position size pending
  obtain ⟨open_,rest⟩ := h.posted position size pending
  exact ⟨same.trans open_,rest⟩

/-- The code after ESC is delivered, and stays unread if only peeked at. -/
theorem gotEscape_reads {item : Item} (h : Holds w.int whole (seek b position) 0 .escaped toks)
    (low : position < b.bufSize) (more : position ≠ b.inp)
    (emits : step w.int .escaped (b.buf position) = (.plain,some item.token)) :
    ∃ next rest, toks = item.token :: rest ∧
      gotEscape (if peeking then b else b.setCounter (b.counter.read item)) peeking position item =
        .ok (.got next item) ∧
      Reads w.int whole b next peeking item rest := by
  obtain ⟨rest,split,moved⟩ := h.advance low more
  obtain ⟨_,bound⟩ := h.span_bound
  rw [emits] at split moved
  cases peeking with
  | true =>
    refine ⟨poll (seek b position),rest,split,?_,?_,⟨0,.escaped,?_,h.poll_stop rfl,fun _ => rfl⟩,?_⟩
    · simp only [gotEscape,got,if_true]
      exact congrArg (· >>= fun b => pure (More.got b _)) h.ibufTriggerRead_eq
    · exact poll_counter _
    · have peeked := h.poll
      rw [split] at peeked
      exact peeked
    · intro _ impossible
      cases impossible
  | false =>
    have counted := moved.setCounter (b.counter.read item) (Counter.read_eof _ _)
    have placed : { (b.setCounter (b.counter.read item)) with
        outEsc := false, cur := position + 1, stop := position + 1 } =
        (seek (setOut b .plain) (position + 1)).setCounter (b.counter.read item) := by
      obtain ⟨esc,count,size⟩ : b.outEsc = true ∧ b.outSizeMode = 0 ∧ b.outDataSize = 0 := by
        simpa [outFlags,flags,seek,place] using h.outFlags
      simp only [seek,place,setOut,flags,InputBuf.setCounter,count,size]
    refine ⟨poll ((seek (setOut b .plain) (position + 1)).setCounter (b.counter.read item)),rest,split,
      ?_,?_,⟨0,_,counted.poll,counted.poll_stop rfl,fun _ => rfl⟩,?_⟩
    · simp only [gotEscape,got,Bool.false_eq_true,if_false]
      rw [placed,counted.ibufTriggerRead_eq]
      rfl
    · exact poll_counter _
    · intro _ _ open_
      have less := span_succ b low more
      refine counted.poll_posted ((congrArg Counter.eof (poll_counter _)).symm.trans open_) ?_
      change span b (position + 1) + 1 < b.bufSize
      change span b position < b.bufSize at bound
      omega

/-- The next token is delivered as its item, unless it has no meaning. -/
theorem dataAvailable_item {item : Item} (h : Holds w.int whole (seek b position) 0 m toks)
    (low : position < b.bufSize) (more : position ≠ b.inp)
    (emits : (step w.int m (b.buf position)).2 = some item.token) :
    ∃ next rest, toks = item.token :: rest ∧
      dataAvailable w peeking b position = .ok (.got next item) ∧
      Reads w.int whole b next peeking item rest := by
  by_cases outside : m = .escaped
  · subst outside
    obtain ⟨esc,count,size⟩ : b.outEsc = true ∧ b.outSizeMode = 0 ∧ b.outDataSize = 0 := by
      simpa [outFlags,flags,seek,place] using h.outFlags
    have plain : step w.int .escaped (b.buf position) = (.plain,some item.token) := by
      simp only [step,escapeStep] at emits ⊢
      split at emits <;> simp_all
    obtain ⟨next,rest,split,run,reads⟩ := gotEscape_reads peeking h low more plain
    refine ⟨next,rest,split,?_,reads⟩
    rw [← run]
    unfold dataAvailable
    rw [if_neg (by simp [count]),if_neg (by simp [size]),if_pos esc]
    simp only [step,escapeStep] at plain
    generalize b.buf position = ch at plain
    cases item with
    | byte value =>
      split at plain <;> simp [Item.token] at plain
      subst plain
      cases peeking <;> rfl
    | eom =>
      split at plain <;> simp [Item.token] at plain
      cases peeking with
      | true => rfl
      | false =>
        simp only [endMessage_eq]
        rfl
    | eos =>
      split at plain <;> simp [Item.token] at plain
      cases peeking <;> rfl
  · cases item with
    | byte ch => exact dataAvailable_byte peeking h low more emits outside
    | eom | eos =>
      cases m <;> simp only [step] at emits
      case escaped => exact absurd rfl outside
      all_goals first | (split at emits <;> cases emits) | cases emits

theorem getMoreLoop_normal (fuel out : Nat) :
    getMoreLoop w peeking fuel b out = getMoreLoop w peeking fuel b (normal b out) := by
  cases fuel with
  | zero => rfl
  | succ fuel =>
    unfold getMoreLoop
    rw [getMoreStep_normal]

theorem span_normal (inside : b.inp < b.bufSize) (out : Nat) : span b (normal b out) = span b out := by
  unfold normal
  split
  · rename_i last
    rw [last,span_wrap b inside]
  · rfl

/-- The loop passes over bytes that yield nothing and stops at a token or at the end. -/
theorem getMoreLoop_skip (toks : List Token) (left fuel out : Nat) (h : Holds w.int whole (seek (b.setOut m) out) 0 m toks)
    (count : span b out = left) (enough : left < fuel) :
    ∃ fuel' position m', getMoreLoop w peeking fuel (b.setOut m) out =
        getMoreLoop w peeking (fuel' + 1) (b.setOut m') position ∧
      Holds w.int whole (seek (b.setOut m') position) 0 m' toks ∧ position < b.bufSize ∧
      (position ≠ b.inp → (step w.int m' (b.buf position)).2 ≠ none) := by
  have inside : b.inp < b.bufSize := h.inside
  induction left generalizing fuel out m with
  | zero =>
    obtain ⟨moved,low⟩ := h.normal
    change normal b out < b.bufSize at low
    rw [← span_normal inside] at count
    refine ⟨fuel - 1,normal b out,m,?_,moved,low,?_⟩
    · rw [getMoreLoop_normal,Nat.sub_add_cancel (by omega)]
      rfl
    · intro more
      have := span_succ b low more
      omega
  | succ left ih =>
    obtain ⟨moved,low⟩ := h.normal
    change normal b out < b.bufSize at low
    rw [← span_normal inside] at count
    obtain ⟨fuel,rfl⟩ : ∃ less, fuel = less + 1 := ⟨fuel - 1,by omega⟩
    by_cases silent : normal b out ≠ b.inp ∧ (step w.int m (b.buf (normal b out))).2 = none
    · obtain ⟨rest,same,next⟩ := moved.advance low silent.1
      have less := span_succ b low silent.1
      obtain rfl : toks = rest := by
        rw [same]
        change (step w.int m (b.buf (normal b out))).2.toList ++ rest = rest
        rw [silent.2]
        rfl
      obtain ⟨fuel',position,m',run,result⟩ := ih fuel (normal b out + 1) next (by omega) (by omega)
      refine ⟨fuel',position,m',?_,result⟩
      rw [← run,getMoreLoop_normal]
      have state : (b.setOut m).outFlags = flags m := rfl
      have pass := dataAvailable_silent peeking (normal b out) state moved.valid
        silent.2
      change getMoreLoop w peeking (fuel + 1) (b.setOut m) (normal b out) = _
      rw [getMoreLoop,getMoreStep_data (b := b.setOut m) peeking low silent.1,pass]
      rfl
    · refine ⟨fuel,normal b out,m,getMoreLoop_normal ..,moved,low,?_⟩
      exact fun more none_ => silent ⟨more,none_⟩

/-- Where a resumed reader looks for its next item. -/
theorem resume_skip (h : Holds w.int whole (seek b b.cur) 0 m toks) :
    ∃ fuel position m', resume w b peeking = getMoreLoop w peeking (fuel + 1) (b.setOut m') position ∧
      Holds w.int whole (seek (b.setOut m') position) 0 m' toks ∧ position < b.bufSize ∧
      (position ≠ b.inp → (step w.int m' (b.buf position)).2 ≠ none) := by
  have same : b.setOut m = b := setOut_self h.outFlags
  obtain ⟨_,bound⟩ := h.span_bound
  have result := getMoreLoop_skip (w := w) (b := b) (m := m) peeking toks
    (span b b.cur) (b.bufSize + 1) b.cur (by rw [same]; exact h) rfl (Nat.lt_succ_of_lt bound)
  rw [same] at result
  exact result

/-- With a token unread, a reader stops at the byte that yields it. -/
theorem resume_token {t : Token} {rest : List Token} (h : Holds w.int whole (seek b b.cur) 0 m (t :: rest)) :
    ∃ fuel position m', resume w b peeking = getMoreLoop w peeking (fuel + 1) (b.setOut m') position ∧
      Holds w.int whole (seek (b.setOut m') position) 0 m' (t :: rest) ∧ position < b.bufSize ∧
      position ≠ b.inp ∧ (step w.int m' (b.buf position)).2 = some t := by
  obtain ⟨fuel,position,m',run,held,low,emits⟩ := resume_skip peeking h
  have more : position ≠ b.inp := by
    rintro rfl
    have none_ := held.toks
    change tokens w.int m' (ahead (b.setOut m') ((b.setOut m').inp + 0)) = _ at none_
    simp at none_
  refine ⟨fuel,position,m',run,held,low,more,?_⟩
  obtain ⟨tail,split,_⟩ := held.advance low more
  change _ = (step w.int m' (b.buf position)).2.toList ++ tail at split
  obtain ⟨t,emitted⟩ := Option.ne_none_iff_exists'.mp (emits more)
  rw [emitted] at split ⊢
  exact congrArg some (List.cons.inj split).1.symm

/-- A reader gets the first unread token. -/
theorem resume_item {item : Item} {rest : List Token}
    (h : Holds w.int whole (seek b b.cur) 0 m (item.token :: rest)) :
    ∃ next, resume w b peeking = .ok (next,some item) ∧ Reads w.int whole b next peeking item rest := by
  obtain ⟨fuel,position,m',run,held,low,more,emitted⟩ := resume_token peeking h
  obtain ⟨next,rest,same,got,reads⟩ := dataAvailable_item peeking held low more emitted
  obtain ⟨_,rfl⟩ := List.cons.inj same
  refine ⟨next,?_,⟨reads.counter,reads.contents,reads.posted⟩⟩
  rw [run,getMoreLoop,getMoreStep_data (b := b.setOut m') peeking low more,got]
  rfl

/-- An escape without meaning reaches the assertion that it never does. -/
theorem resume_bad {rest : List Token} (h : Holds w.int whole (seek b b.cur) 0 m (.bad :: rest)) :
    resume w b peeking = .error .assertion := by
  obtain ⟨fuel,position,m',run,held,low,more,emitted⟩ := resume_token peeking h
  obtain rfl : m' = .escaped := by
    cases m' <;> simp only [step] at emitted <;>
      first | rfl | (split at emitted <;> cases emitted) | cases emitted
  obtain ⟨esc,count,size⟩ : (b.setOut .escaped).outEsc = true ∧ (b.setOut .escaped).outSizeMode = 0 ∧
      (b.setOut .escaped).outDataSize = 0 := ⟨rfl,rfl,rfl⟩
  have stopped : dataAvailable w peeking (b.setOut .escaped) position = .error .assertion := by
    unfold dataAvailable
    rw [if_neg (by simp [count]),if_neg (by simp [size]),if_pos esc]
    simp only [step,escapeStep] at emitted
    generalize code : b.buf position = ch at emitted
    rw [show (b.setOut .escaped).buf position = ch from code]
    split at emitted <;> simp_all
  rw [run,getMoreLoop,getMoreStep_data (b := b.setOut .escaped) peeking low more,stopped]
  rfl

/-- With nothing unread, a reader stops at the last received byte. -/
theorem resume_empty (h : Holds w.int whole (seek b b.cur) 0 m []) :
    ∃ fuel m', resume w b peeking = getMoreLoop w peeking (fuel + 1) (b.setOut m') b.inp ∧
      Holds w.int whole (seek (b.setOut m') b.inp) 0 m' [] ∧ b.inp < b.bufSize := by
  obtain ⟨fuel,position,m',run,held,low,emits⟩ := resume_skip peeking h
  by_cases more : position = b.inp
  · subst more
    exact ⟨fuel,m',run,held,low⟩
  · obtain ⟨t,emitted⟩ := Option.ne_none_iff_exists'.mp (emits more)
    obtain ⟨tail,split,_⟩ := held.advance low more
    change _ = (step w.int m' (b.buf position)).2.toList ++ tail at split
    rw [emitted] at split
    cases split

theorem getMoreStep_empty (low : b.inp < b.bufSize) (allowed : b.longMsg = true ∨ b.eof = true) :
    getMoreStep w peeking b b.inp =
      if b.eof then .ok (.got (place b b.inp b.stop) .eos)
      else (do
        require (b.messageCount = 1)
        pure (.wait (← ibufTriggerRead (place b b.inp b.stop)))) := by
  unfold getMoreStep
  simp only [if_neg (Nat.ne_of_lt low),if_true,require_true allowed,Code.ok_bind]
  rfl

/-- A waiting reader leaves `stop` behind. -/
theorem Holds.unsettle {stop : Nat} (h : Holds w.int whole (seek b position) 0 m toks)
    (low : position < b.bufSize) : Holds w.int whole (place b position stop) 0 m toks :=
  ⟨h.large,h.inside,h.order,.inr ⟨rfl,low⟩,h.outFlags,h.valid,h.inpFlags,h.toks,h.scan,h.posted⟩

/-- A resumed reader does not look at `stop`. -/
theorem Holds.settle (h : Holds w.int whole b 0 m toks) : Holds w.int whole (seek b b.cur) 0 m toks :=
  ⟨h.large,h.inside,h.order,.inl rfl,h.outFlags,h.valid,h.inpFlags,h.toks,h.scan,h.posted⟩

/-- After the end of the stream a reader that finds nothing gets its marker. -/
theorem resume_eof (h : Holds w.int whole (seek b b.cur) 0 m []) (eof : b.eof = true) :
    ∃ next, resume w b peeking = .ok (next,some .eos) ∧ next.counter = b.counter ∧
      next.readPending = b.readPending := by
  obtain ⟨fuel,m',run,held,low⟩ := resume_empty peeking h
  have stopped := getMoreStep_empty (w := w) (b := b.setOut m') peeking low (.inr eof)
  rw [if_pos (show (b.setOut m').eof = true from eof)] at stopped
  refine ⟨place (b.setOut m') b.inp b.stop,?_,rfl,rfl⟩
  rw [run,getMoreLoop]
  change (getMoreStep w peeking (b.setOut m') (b.setOut m').inp >>= _) = _
  rw [stopped]
  rfl

/-- Before that it waits, in a long message only. -/
theorem resume_wait (h : Holds w.int whole (seek b b.cur) 0 m []) (open_ : b.eof = false)
    (long : b.longMsg = true) (one : b.messageCount = 1) :
    ∃ next m', resume w b peeking = .ok (next,none) ∧ Holds w.int whole next 0 m' [] ∧
      next.counter = b.counter ∧ next.readPending.isSome ∧ next.cur = next.inp := by
  obtain ⟨fuel,m',run,held,low⟩ := resume_empty peeking h
  have open' : ¬(b.setOut m').eof = true := by
    rw [show (b.setOut m').eof = b.eof from rfl,open_]
    decide
  have one' : (b.setOut m').messageCount = 1 := one
  have stopped := getMoreStep_empty (w := w) (b := b.setOut m') peeking low (.inl long)
  have waiting : Holds w.int whole (place (b.setOut m') b.inp b.stop) 0 m' [] := held.unsettle low
  rw [if_neg open',require_true one',Code.ok_bind] at stopped
  have trigger := waiting.ibufTriggerRead_eq
  refine ⟨poll (place (b.setOut m') b.inp b.stop),m',?_,waiting.poll,poll_counter _,
    waiting.poll_posted open_ ?_,?_⟩
  · rw [run,getMoreLoop]
    change (getMoreStep w peeking (b.setOut m') (b.setOut m').inp >>= _) = _
    rw [stopped]
    change ((ibufTriggerRead (place (b.setOut m') b.inp b.stop) >>= _) >>= _) = _
    rw [trigger]
    rfl
  · have large : 128 ≤ b.bufSize := h.large
    change span b b.inp + 1 < b.bufSize
    rw [span_inp]
    omega
  · obtain ⟨cur,inp⟩ := poll_inner (b := place (b.setOut m') b.inp b.stop) low
    exact cur.trans inp.symm

/-- A reader with no literal byte left asks for more. -/
theorem readStream_resume (h : Holds w.int whole b 0 m toks) (settled : b.stop = b.cur)
    (some_ : b.messageCount ≠ 0) (active : b.handlingMsg = .active) :
    readStream w b peeking = resume w b peeking := by
  have inside := h.inside
  have order := h.order
  unfold readStream ibufGetMore
  rw [if_neg (by omega),require_true (Nat.pos_of_ne_zero some_),require_true active,
    require_true (show b.cur ≤ b.bufSize by omega),require_true settled.symm]
  rfl

/-- Literal bytes are delivered without a look at the buffer's other fields. -/
theorem readStream_literal {lit : Nat} (h : Holds w.int whole b (lit + 1) m toks)
    (settled : b.stop = b.cur + (lit + 1)) :
    ∃ next rest, toks = .byte (b.buf b.cur) :: rest ∧
      readStream w b peeking = .ok (next,some (.byte (b.buf b.cur))) ∧
      Reads w.int whole b next peeking (.byte (b.buf b.cur)) rest := by
  obtain ⟨rest,split,taken,stop⟩ := h.consume
  have more : b.cur < b.stop := by omega
  cases peeking with
  | true =>
    exact ⟨b,rest,split,by rw [readStream,if_pos more]; rfl,rfl,⟨_,_,split ▸ h,settled,nofun⟩,nofun⟩
  | false =>
    exact ⟨place b (b.cur + 1) b.stop,rest,split,by rw [readStream,if_pos more]; rfl,rfl,
      ⟨_,_,taken,stop,nofun⟩,nofun⟩

end Tcf.InputBuf
