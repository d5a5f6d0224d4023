import Tcf.InputBufDeliver

/-! The count of messages against the unread tokens. A message is being handled either
when its end has arrived, or when it is too long for the buffer. -/
namespace Tcf.InputBuf

open Framing

def marks : Token → Bool
  | .byte _ => false
  | _ => true

/-- The first token that is not a byte. -/
def firstMarker (toks : List Token) : Option Token := toks.find? marks

/-- The count is exact, and a message being read can be read to its end or has no end yet. -/
structure Counted (c : Counter) (reading : Bool) (toks : List Token) : Prop where
  total : c.messageCount = toks.count .eom + c.longMsg.toNat + c.eof.toNat
  idle : c.handlingMsg = .idle ↔ c.messageCount = 0
  active : reading = true ↔ c.handlingMsg = .active
  clean : c.eof = false → .eos ∉ toks ∧ .bad ∉ toks
  long : c.longMsg = true → .eom ∉ toks ∧ firstMarker toks ≠ some .bad
  complete : reading = true → c.longMsg = false → firstMarker toks = some .eom

/-- Tokens that may arrive while a long message is open: no invalid escape before its
end, and no end of stream followed by it. -/
def longSafe (toks : List Token) : Prop :=
  firstMarker toks ≠ some .bad ∧ (firstMarker toks = some .eos → .eom ∉ toks)

instance (toks : List Token) : Decidable (longSafe toks) :=
  inferInstanceAs (Decidable (firstMarker toks ≠ some .bad ∧ (firstMarker toks = some .eos → .eom ∉ toks)))

@[simp] theorem firstMarker_nil : firstMarker [] = none := rfl

@[simp] theorem firstMarker_byte (ch : UInt8) (toks : List Token) :
    firstMarker (.byte ch :: toks) = firstMarker toks := rfl

theorem firstMarker_append (first second : List Token) :
    firstMarker (first ++ second) = (firstMarker first).or (firstMarker second) :=
  List.find?_append ..

theorem firstMarker_mem {toks : List Token} {t : Token} (h : firstMarker toks = some t) : t ∈ toks :=
  List.mem_of_find?_eq_some h

theorem firstMarker_none {toks : List Token} (h : firstMarker toks = none) {t : Token} (marked : marks t) :
    t ∉ toks := by
  intro member
  have := List.find?_eq_none.mp h t member
  exact this marked

/-- Without ends of stream the first marker is an end of message. -/
theorem firstMarker_clean {toks : List Token} (eos : .eos ∉ toks) (bad : .bad ∉ toks) :
    firstMarker toks = none ∨ firstMarker toks = some .eom := by
  cases h : firstMarker toks with
  | none => exact .inl rfl
  | some t =>
    have member := firstMarker_mem h
    cases t with
    | byte ch =>
      have := List.find?_some h
      cases this
    | eom => exact .inr rfl
    | eos => exact absurd member eos
    | bad => exact absurd member bad

theorem firstMarker_eom {toks : List Token} (eos : .eos ∉ toks) (bad : .bad ∉ toks) (some_ : .eom ∈ toks) :
    firstMarker toks = some .eom := by
  rcases firstMarker_clean eos bad with none_ | found
  · exact absurd some_ (firstMarker_none none_ rfl)
  · exact found

/-- A token that may arrive next. -/
def Counter.Safe (c : Counter) (t : Token) : Prop :=
  c.longMsg = true → (t = .bad → c.eof = true) ∧ (t = .eom → c.eof = false)

def Counter.SafeAll : Counter → List Token → Prop
  | _, [] => True
  | c, t :: rest => c.Safe t ∧ SafeAll (c.arrive t) rest

@[simp] theorem Counter.arrive_byte (c : Counter) (ch : UInt8) : c.arrive (.byte ch) = c := rfl

theorem Counter.endOfStream_long (c : Counter) : c.endOfStream.longMsg = c.longMsg := by
  unfold Counter.endOfStream
  split <;> rfl

theorem Counter.endOfStream_eof (c : Counter) : c.endOfStream.eof = true := by
  unfold Counter.endOfStream
  split
  · assumption
  · rfl

/-- No long message is open, and none begins while a read is scanned. -/
theorem Counter.safeAll_short (c : Counter) (short : c.longMsg = false) (toks : List Token) :
    c.SafeAll toks := by
  induction toks generalizing c with
  | nil => trivial
  | cons t rest ih =>
    refine ⟨fun long => absurd long (by simp [short]),ih _ ?_⟩
    cases t with
    | byte ch => exact short
    | eom => simp [Counter.arrive,short,Counter.newMessage]
    | eos | bad => exact (Counter.endOfStream_long c).trans short

theorem Counter.safeAll_ended (c : Counter) (eof : c.eof = true) (toks : List Token) (none_ : .eom ∉ toks) :
    c.SafeAll toks := by
  induction toks generalizing c with
  | nil => trivial
  | cons t rest ih =>
    have other := List.ne_of_not_mem_cons none_
    refine ⟨fun _ => ⟨fun _ => eof,fun end_ => absurd end_.symm other⟩,
      ih _ ?_ (List.not_mem_of_not_mem_cons none_)⟩
    cases t with
    | byte ch => exact eof
    | eom => exact absurd rfl other
    | eos | bad => exact Counter.endOfStream_eof c

theorem Counter.safeAll (c : Counter) (open_ : c.eof = false) (toks : List Token)
    (safe : c.longMsg = true → longSafe toks) : c.SafeAll toks := by
  induction toks generalizing c with
  | nil => trivial
  | cons t rest ih =>
    cases t with
    | byte ch =>
      refine ⟨fun _ => ⟨by simp,by simp⟩,ih c open_ ?_⟩
      intro long
      obtain ⟨valid,ended⟩ := safe long
      exact ⟨valid,fun eos => List.not_mem_of_not_mem_cons (ended eos)⟩
    | eom =>
      refine ⟨fun _ => ⟨by simp,fun _ => open_⟩,Counter.safeAll_short _ ?_ rest⟩
      by_cases long : c.longMsg = true
      · simp [Counter.arrive,long]
      · simp [Counter.arrive,long,Counter.newMessage]
    | eos =>
      refine ⟨fun _ => ⟨by simp,by simp⟩,?_⟩
      by_cases long : c.longMsg = true
      · exact Counter.safeAll_ended _ (Counter.endOfStream_eof c) rest
          (List.not_mem_of_not_mem_cons ((safe long).2 rfl))
      · exact Counter.safeAll_short _ ((Counter.endOfStream_long c).trans (by simpa using long)) rest
    | bad =>
      by_cases long : c.longMsg = true
      · exact absurd rfl (safe long).1
      · exact Counter.safeAll_short c (by simpa using long) _

/-- A long message stays open as long as its end has not arrived. -/
theorem Counter.arriveAll_long {c : Counter} {toks : List Token} (long : (c.arriveAll toks).longMsg = true) :
    c.longMsg = true ∧ .eom ∉ toks := by
  induction toks generalizing c with
  | nil => exact ⟨long,List.not_mem_nil⟩
  | cons t rest ih =>
    obtain ⟨before,later⟩ := ih long
    cases t with
    | byte ch => exact ⟨before,by simpa using later⟩
    | eom =>
      exfalso
      by_cases open_ : c.longMsg = true
      · simp [Counter.arrive,open_] at before
      · simp [Counter.arrive,open_,Counter.newMessage] at before
    | eos | bad => exact ⟨(Counter.endOfStream_long c).symm.trans before,by simpa using later⟩

theorem Counter.arriveAll_eof {c : Counter} {toks : List Token} (eof : (c.arriveAll toks).eof = true) :
    c.eof = true ∨ .eos ∈ toks ∨ .bad ∈ toks := by
  induction toks generalizing c with
  | nil => exact .inl eof
  | cons t rest ih =>
    cases t with
    | eos => exact .inr (.inl (List.mem_cons_self ..))
    | bad => exact .inr (.inr (List.mem_cons_self ..))
    | byte ch =>
      rcases ih eof with before | eos | bad
      · exact .inl before
      · exact .inr (.inl (List.mem_cons_of_mem _ eos))
      · exact .inr (.inr (List.mem_cons_of_mem _ bad))
    | eom =>
      rcases ih eof with before | eos | bad
      · refine .inl ?_
        by_cases open_ : c.longMsg = true
        · simpa [Counter.arrive,open_] using before
        · simpa [Counter.arrive,open_,Counter.newMessage] using before
      · exact .inr (.inl (List.mem_cons_of_mem _ eos))
      · exact .inr (.inr (List.mem_cons_of_mem _ bad))

theorem Counter.arrive_ended {c : Counter} (eof : c.eof = true) (t : Token) : (c.arrive t).eof = true := by
  cases t with
  | byte ch => exact eof
  | eom => by_cases open_ : c.longMsg = true <;> simp [Counter.arrive,open_,Counter.newMessage,eof]
  | eos | bad => exact Counter.endOfStream_eof c

theorem Counter.arriveAll_ended {c : Counter} {toks : List Token} (ends : c.eof = true ∨ .bad ∈ toks) :
    (c.arriveAll toks).eof = true := by
  induction toks generalizing c with
  | nil => simpa using ends
  | cons t rest ih =>
    refine ih ?_
    rcases ends with eof | bad
    · exact .inl (Counter.arrive_ended eof t)
    · rcases List.mem_cons.mp bad with rfl | later
      · exact .inl (Counter.endOfStream_eof c)
      · exact .inr later

namespace Counted

variable {c : Counter} {reading : Bool} {toks : List Token}

section

variable (h : Counted c reading toks)

include h

theorem open_first (open_ : c.eof = false) (long : c.longMsg = true) :
    firstMarker toks = none := by
  obtain ⟨eos,bad⟩ := h.clean open_
  rcases firstMarker_clean eos bad with none_ | found
  · exact none_
  · exact absurd (firstMarker_mem found) (h.long long).1

/-- A counted message wakes an idle handler. -/
theorem newMessage {next : Counter} {more : List Token}
    (total : c.messageCount + 1 = more.count .eom + next.longMsg.toNat + next.eof.toNat)
    (count : next.messageCount = c.messageCount + 1)
    (handling : next.handlingMsg = if c.handlingMsg = .idle then .triggered else c.handlingMsg)
    (clean : next.eof = false → .eos ∉ more ∧ .bad ∉ more)
    (long : next.longMsg = true → .eom ∉ more ∧ firstMarker more ≠ some .bad)
    (complete : reading = true → next.longMsg = false → firstMarker more = some .eom) :
    Counted next reading more := by
  refine ⟨count.trans total,?_,?_,clean,long,complete⟩
  · have awake : (if c.handlingMsg = .idle then HandleMsg.triggered else c.handlingMsg) ≠ .idle := by
      split
      · decide
      · assumption
    rw [handling]
    exact ⟨fun idle => absurd idle awake,fun none_ => absurd (count.symm.trans none_) (Nat.succ_ne_zero _)⟩
  · rw [h.active,handling]
    split <;> simp_all

theorem endOfStream {more : List Token} (same : more.count .eom = toks.count .eom)
    (open_ : c.eof = false) (long : c.longMsg = true → .eom ∉ more ∧ firstMarker more ≠ some .bad)
    (complete : reading = true → c.longMsg = false → firstMarker more = some .eom) :
    Counted c.endOfStream reading more := by
  have ended : c.endOfStream = { c with eof := true }.newMessage := by
    rw [Counter.endOfStream,if_neg (by simp [open_])]
  rw [ended]
  refine h.newMessage ?_ rfl rfl (fun impossible => by cases impossible) long complete
  have total := h.total
  simp only [open_,Bool.toNat_false] at total
  simp only [Counter.newMessage,same,Bool.toNat_true]
  omega

/-- An end of stream is counted once, and never first in a long message when invalid. -/
theorem ends {t : Token} (marker : marks t = true) (other : t ≠ .eom)
    (valid : c.longMsg = true → t = .bad → c.eof = true)
    (marked : c.eof = true → c.longMsg = true → firstMarker toks = some .eos) :
    Counted c.endOfStream reading (toks ++ [t]) ∧
      (c.endOfStream.eof = true → c.endOfStream.longMsg = true → firstMarker (toks ++ [t]) = some .eos) := by
  have last : firstMarker [t] = some t := by simp [firstMarker,marker]
  have same : (toks ++ [t]).count .eom = toks.count .eom := by
    simp [List.count_cons_of_ne other]
  have first : c.longMsg = true → firstMarker (toks ++ [t]) = some .eos ∨ (c.eof = false ∧
      firstMarker (toks ++ [t]) = some t) := by
    intro long
    cases eof : c.eof with
    | true => exact .inl (by rw [firstMarker_append,marked eof long]; rfl)
    | false => exact .inr ⟨rfl,by rw [firstMarker_append,h.open_first eof long,last]; rfl⟩
  have valid' : c.longMsg = true → .eom ∉ toks ++ [t] ∧ firstMarker (toks ++ [t]) ≠ some .bad := by
    intro long
    refine ⟨by simp [(h.long long).1,Ne.symm other],?_⟩
    rcases first long with eos | ⟨open_,only⟩
    · simp [eos]
    · rw [only]
      intro bad
      simp [valid long (Option.some.inj bad)] at open_
  have complete : reading = true → c.longMsg = false → firstMarker (toks ++ [t]) = some .eom := by
    intro busy short
    rw [firstMarker_append,h.complete busy short]
    rfl
  constructor
  · cases eof : c.eof with
    | true =>
      rw [Counter.endOfStream,if_pos eof]
      exact ⟨by rw [same]; exact h.total,h.idle,h.active,by simp [eof],valid',complete⟩
    | false => exact h.endOfStream same eof valid' complete
  · intro _ long
    rw [Counter.endOfStream_long] at long
    rcases first long with eos | ⟨open_,only⟩
    · exact eos
    · cases t with
      | byte ch => cases marker
      | eom => exact absurd rfl other
      | eos => exact only
      | bad => simp [valid long rfl] at open_

theorem arrive {t : Token} (safe : c.Safe t)
    (marked : c.eof = true → c.longMsg = true → firstMarker toks = some .eos) :
    c.Accepts t ∧ Counted (c.arrive t) reading (toks ++ [t]) ∧
      ((c.arrive t).eof = true → (c.arrive t).longMsg = true → firstMarker (toks ++ [t]) = some .eos) := by
  cases t with
  | byte ch =>
    have same : firstMarker (toks ++ [.byte ch]) = firstMarker toks := by simp [firstMarker_append]
    refine ⟨by simp [Counter.Accepts],⟨?_,h.idle,h.active,?_,?_,?_⟩,?_⟩
    · simpa using h.total
    · simpa using h.clean
    · simpa [same] using h.long
    · simpa [same] using h.complete
    · simpa [same] using marked
  | eom =>
    by_cases long : c.longMsg = true
    · have open_ := (safe long).2 rfl
      have none_ := h.open_first open_ long
      have first : firstMarker (toks ++ [.eom]) = some .eom := by rw [firstMarker_append,none_]; rfl
      have count : toks.count .eom = 0 := List.count_eq_zero.mpr (h.long long).1
      have total := h.total
      have one : c.messageCount = 1 := by simpa [count,long,open_] using total
      refine ⟨fun _ _ => one,⟨?_,?_,?_,?_,?_,fun _ _ => first⟩,?_⟩
      · simp [Counter.arrive,long,count,open_,one]
      · simpa [Counter.arrive,long] using h.idle
      · simpa [Counter.arrive,long] using h.active
      · simpa [Counter.arrive,long] using h.clean
      · simp [Counter.arrive,long]
      · simp [Counter.arrive,long]
    · have short : c.longMsg = false := by simpa using long
      refine ⟨fun _ impossible => absurd impossible long,?_,?_⟩
      · simp only [Counter.arrive,if_neg long]
        refine h.newMessage ?_ rfl rfl ?_ ?_ ?_
        · have total := h.total
          simp only [Counter.newMessage,List.count_append,List.count_singleton_self]
          omega
        · simpa [Counter.newMessage] using h.clean
        · simp [Counter.newMessage,short]
        · intro busy _
          rw [firstMarker_append,h.complete busy short]
          rfl
      · simp [Counter.arrive,Counter.newMessage,short]
  | eos => exact ⟨by simp [Counter.Accepts],h.ends rfl (by simp) (by simp) marked⟩
  | bad => exact ⟨by simp [Counter.Accepts],h.ends rfl (by simp) (fun long _ => (safe long).1 rfl) marked⟩

/-- Everything one read brings is counted without a failed assertion. -/
theorem arriveAll {more : List Token} (safe : c.SafeAll more)
    (marked : c.eof = true → c.longMsg = true → firstMarker toks = some .eos) :
    c.AcceptsAll more ∧ Counted (c.arriveAll more) reading (toks ++ more) := by
  induction more generalizing c toks with
  | nil => exact ⟨trivial,by simpa using h⟩
  | cons t rest ih =>
    obtain ⟨accepts,counted,marked⟩ := h.arrive safe.1 marked
    obtain ⟨later,result⟩ := ih counted safe.2 marked
    exact ⟨⟨accepts,later⟩,by simpa using result⟩

/-- Nothing is counted only before the end of the stream, and then nothing is read. -/
theorem unoccupied (none_ : c.messageCount = 0) :
    reading = false ∧ c.eof = false := by
  constructor
  · cases busy : reading with
    | false => rfl
    | true =>
      have active := h.active.mp busy
      rw [h.idle.mpr none_] at active
      cases active
  · have total := h.total
    cases eof : c.eof with
    | false => rfl
    | true => simp [none_,eof] at total

/-- A full buffer without a message starts a long one. -/
theorem full (none_ : c.messageCount = 0) :
    Counted { c with longMsg := true }.newMessage reading toks := by
  have total := h.total
  have open_ := (h.unoccupied none_).2
  have count : toks.count .eom = 0 := by omega
  have short : c.longMsg = false := by
    cases long : c.longMsg with
    | false => rfl
    | true =>
      simp only [none_,long,Bool.toNat_true] at total
      omega
  refine h.newMessage ?_ rfl rfl h.clean ?_ (fun _ impossible => by cases impossible)
  · simp [Counter.newMessage,count,none_,open_]
  · intro _
    refine ⟨List.count_eq_zero.mp count,?_⟩
    intro bad
    exact (h.clean open_).2 (firstMarker_mem bad)

theorem closed (open_ : c.eof = false) : Counted c.endOfStream reading toks :=
  h.endOfStream rfl open_ h.long h.complete

end

/-- A handler that starts has a message to read. -/
theorem start (h : Counted c false toks) (waiting : c.handlingMsg = .triggered) (open_ : c.eof = false) :
    Counted { c with handlingMsg := .active } true toks := by
  have some_ : c.messageCount ≠ 0 := by
    rw [ne_eq,← h.idle,waiting]
    decide
  refine ⟨h.total,?_,by simp,h.clean,h.long,?_⟩
  · simpa using some_
  · intro _ short
    have total := h.total
    obtain ⟨eos,bad⟩ := h.clean open_
    refine firstMarker_eom eos bad (List.count_pos_iff.mp ?_)
    simp only [show c.longMsg = false from short,open_,Bool.toNat_false] at total
    omega

theorem readByte {ch : UInt8} (h : Counted c reading (.byte ch :: toks)) : Counted c reading toks := by
  refine ⟨by simpa using h.total,h.idle,h.active,by simpa using h.clean,by simpa using h.long,?_⟩
  simpa using h.complete

theorem readEom (h : Counted c true (.eom :: toks)) : Counted (c.read .eom) false toks := by
  have total := h.total
  simp only [List.count_cons_self] at total
  have short : c.longMsg = false := by
    cases long : c.longMsg with
    | false => rfl
    | true => exact absurd (List.mem_cons_self ..) (h.long long).1
  refine ⟨?_,?_,?_,by simpa [Counter.read] using h.clean,?_,nofun⟩
  · simp only [Counter.read,short,Bool.toNat_false] at total ⊢
    omega
  · simp only [Counter.read]
    split <;> simp_all
  · simp only [Counter.read]
    split <;> simp
  · simp [Counter.read,short]

theorem busy (h : Counted c true toks) : 0 < c.messageCount ∧ c.handlingMsg = .active := by
  have active := h.active.mp rfl
  refine ⟨Nat.pos_of_ne_zero fun none_ => ?_,active⟩
  have := h.idle.mpr none_
  rw [active] at this
  cases this

/-- A reader never meets an escape without meaning. -/
theorem no_bad (h : Counted c true (.bad :: toks)) : False := by
  cases long : c.longMsg with
  | true => exact (h.long long).2 rfl
  | false => cases h.complete rfl long

theorem eos_eof (h : Counted c reading (.eos :: toks)) : c.eof = true := by
  cases eof : c.eof with
  | true => rfl
  | false => exact absurd (List.mem_cons_self ..) (h.clean eof).1

/-- A reader that finds nothing is in a long message, the only one counted. -/
theorem drained (h : Counted c true []) : c.longMsg = true ∧ (c.eof = false → c.messageCount = 1) := by
  have long : c.longMsg = true := by
    cases long : c.longMsg with
    | true => rfl
    | false => cases h.complete rfl long
  refine ⟨long,fun open_ => ?_⟩
  have total := h.total
  simpa [long,open_] using total

end Counted

end Tcf.InputBuf
