import Tcf.RegisterIds

/-! When an ID of a register stands for the register it was made of, and when a text that is read is an ID. -/
namespace Tcf.RegisterIds

open Json (decimal)

variable {κ : Type} {t : Target κ} {ctx : κ} {frame : Int32} {reg : Nat} {text : Text}

section Writing

theorem intText_nonnegative {n : Int32} (nonnegative : 0 ≤ n.toInt) : intText n = decimal n.toInt.toNat := by
  unfold intText
  rw [if_neg (Int.not_lt.mpr nonnegative)]
  congr 1
  omega

/-- The characters of a number in an ID, with a sign or without. -/
def InNumber (ch : UInt8) : Prop := ch ≠ dot ∧ ch ≠ atSign

theorem inNumber_digit {ch : UInt8} (digit : isDigit ch = true) : InNumber ch := by
  constructor <;> rintro rfl <;> exact absurd digit (by decide)

theorem intText_inNumber (n : Int32) : ∀ ch ∈ intText n, InNumber ch := by
  intro ch member
  unfold intText at member
  split at member
  · rcases List.mem_cons.mp member with rfl | digit
    · exact ⟨by decide,by decide⟩
    · exact inNumber_digit (decimal_isDigit _ ch digit)
  · exact inNumber_digit (decimal_isDigit _ ch member)

theorem decimal_short {n : Nat} (k : Nat) (small : n < 10 ^ (k + 1)) : (decimal n).length ≤ k + 1 := by
  induction k generalizing n with
  | zero =>
    unfold decimal
    rw [if_neg (by omega)]
    exact Nat.le_refl 1
  | succ k ih =>
    unfold decimal
    split
    · have := @ih (n / 10) (Nat.div_lt_of_lt_mul (by rwa [Nat.mul_comm,← Nat.pow_succ]))
      rw [List.length_append,List.length_singleton]
      omega
    · simp

theorem intText_length (n : Int32) : (intText n).length ≤ 11 := by
  have low := n.le_toInt
  have high := n.toInt_lt
  have digits : (decimal n.toInt.natAbs).length ≤ 10 := decimal_short 9 (by omega)
  unfold intText
  split
  · exact Nat.succ_le_succ digits
  · exact Nat.le_succ_of_le digits

/-- The number of a frame in an ID. -/
def frameText (frame : Int32) : Text := if frame.toInt < 0 then [] else atSign :: intText frame

theorem frameText_length (frame : Int32) : (frameText frame).length ≤ 12 := by
  unfold frameText
  split
  · exact Nat.zero_le _
  · exact Nat.succ_le_succ (intText_length frame)

/-- What is cut off an ID is of the ID of the context. -/
theorem register2id_eq (t : Target κ) (ctx : κ) (frame : Int32) (reg : Nat) : ∃ k, t.register2id ctx frame reg =
    letterR :: (intText (Int32.ofNat reg) ++ (frameText frame ++ dot :: (t.id ctx).take k)) ∧
    ((intText (Int32.ofNat reg)).length + (frameText frame).length + (t.id ctx).length + 2 < 256 → (t.id ctx).take k = t.id ctx) ∧
    (256 ≤ (intText (Int32.ofNat reg)).length + (frameText frame).length + (t.id ctx).length + 2 → (t.id ctx).take k ≠ t.id ctx) := by
  have first := intText_length (Int32.ofNat reg)
  have second := frameText_length frame
  obtain ⟨k,room⟩ := Nat.exists_eq_add_of_le (show (intText (Int32.ofNat reg)).length + (frameText frame).length + 2 ≤ 255 by omega)
  refine ⟨k,?_,fun short => List.take_of_length_le (by omega),fun long same => ?_⟩
  · have split : (255 : Nat) = (letterR :: (intText (Int32.ofNat reg) ++ (frameText frame ++ [dot]))).length + k := by
      simp only [List.length_cons,List.length_append,List.length_nil]
      omega
    have whole : letterR :: (intText (Int32.ofNat reg) ++ (if frame.toInt < 0 then [] else atSign :: intText frame) ++ dot :: t.id ctx) =
        (letterR :: (intText (Int32.ofNat reg) ++ (frameText frame ++ [dot]))) ++ t.id ctx := by
      simp [frameText]
    unfold Target.register2id
    rw [whole,split,List.take_length_add_append]
    simp
  · have length := congrArg List.length same
    rw [List.length_take] at length
    omega

theorem register2id_short (t : Target κ) (ctx : κ) (frame : Int32) (reg : Nat) : (t.register2id ctx frame reg).length < 256 := by
  unfold Target.register2id
  rw [List.length_take]
  omega

/-- What two texts have in front of a character that is not part of a number. -/
theorem front_unique {front front' rest rest' : Text} {stop stop' : UInt8} (all : ∀ ch ∈ front, InNumber ch)
    (all' : ∀ ch ∈ front', InNumber ch) (out : ¬InNumber stop) (out' : ¬InNumber stop')
    (same : front ++ stop :: rest = front' ++ stop' :: rest') : front = front' ∧ stop :: rest = stop' :: rest' := by
  induction front generalizing front' with
  | nil =>
    cases front' with
    | nil => exact ⟨rfl,same⟩
    | cons ch front' =>
      obtain ⟨rfl,-⟩ := List.cons.inj same
      exact absurd (all' stop List.mem_cons_self) out
  | cons ch front ih =>
    cases front' with
    | nil =>
      obtain ⟨rfl,-⟩ := List.cons.inj same
      exact absurd (all ch List.mem_cons_self) out'
    | cons ch' front' =>
      obtain ⟨rfl,behind⟩ := List.cons.inj same
      obtain ⟨rfl,equal⟩ := ih (fun x member => all x (List.mem_cons_of_mem _ member))
        (fun x member => all' x (List.mem_cons_of_mem _ member)) behind
      exact ⟨rfl,equal⟩

theorem intText_digits {n : Int32} (digits : ∀ ch ∈ intText n, isDigit ch = true) : 0 ≤ n.toInt := by
  by_contra negative
  have sign : minus ∈ intText n := by
    unfold intText
    rw [if_pos (Int.not_le.mp negative)]
    exact List.mem_cons_self
  exact absurd (digits minus sign) (by decide)

theorem intText_plain {n : Int32} (digits : ∀ ch ∈ intText n, isDigit ch = true) : Plain (intText n) := by
  rw [intText_nonnegative (intText_digits digits)]
  exact decimal_plain _

theorem intText_ofNat {n : Nat} (small : n < 2 ^ 31) : intText (Int32.ofNat n) = decimal n := by
  have value := Int32.toInt_ofNat_of_lt small
  rw [intText_nonnegative (by omega),value]
  rfl

end Writing

section Reading

theorem id2ctx_id {id : Text} (found : t.id2ctx id = some ctx) : t.id ctx = id := by
  have holds := List.find?_some found
  exact of_decide_eq_true holds

/-- The context is there, and has not exited. -/
def Live (t : Target κ) (id : Text) (ctx : κ) : Prop := t.id2ctx id = some ctx ∧ t.exited ctx = false

theorem findRegister_ok {reg' : Nat} {frame' : Int32} {id : Text} :
    t.findRegister reg frame id = .ok (ctx,frame',reg') ↔ Live t id ctx ∧ frame' = frame ∧ reg' = reg := by
  unfold Target.findRegister Live
  cases t.id2ctx id with
  | none => simp
  | some other =>
    dsimp only
    by_cases gone : t.exited other = true
    · rw [if_pos gone]
      refine ⟨nofun,?_⟩
      rintro ⟨⟨same,alive⟩,-⟩
      cases same
      exact absurd gone (by simp [alive])
    · rw [if_neg gone]
      constructor
      · intro same
        cases same
        exact ⟨⟨rfl,by simpa using gone⟩,rfl,rfl⟩
      · rintro ⟨⟨same,-⟩,rfl,rfl⟩
        cases same
        rfl

theorem findRegister_defined (t : Target κ) (reg : Nat) (frame : Int32) (id : Text) : t.findRegister reg frame id ≠ .error .undefined := by
  unfold Target.findRegister
  cases t.id2ctx id with
  | none => simp
  | some other =>
    dsimp only
    split <;> simp

theorem takeWhile_digits {ds rest : Text} {stop : UInt8} (all : ∀ ch ∈ ds, isDigit ch = true) (out : isDigit stop = false) :
    (ds ++ stop :: rest).takeWhile isDigit = ds ∧ (ds ++ stop :: rest).dropWhile isDigit = stop :: rest := by
  have not : ¬isDigit stop = true := by simp [out]
  rw [List.takeWhile_append_of_pos all,List.dropWhile_append_of_pos all,List.takeWhile_cons_of_neg not,List.dropWhile_cons_of_neg not]
  exact ⟨List.append_nil ds,rfl⟩

theorem dot_apart : ∀ ch ∈ [dot], isDigit ch = false := List.forall_mem_cons.mpr ⟨rfl,nofun⟩

theorem both_apart : ∀ ch ∈ [dot,atSign], isDigit ch = false :=
  List.forall_mem_cons.mpr ⟨rfl,List.forall_mem_cons.mpr ⟨rfl,nofun⟩⟩

theorem readNumber_front {ends : List UInt8} (apart : ∀ ch ∈ ends, isDigit ch = false) {ds rest : Text} {stop : UInt8}
    (all : ∀ ch ∈ ds, isDigit ch = true) (member : stop ∈ ends) (small : number 0 ds < 2 ^ 31) :
    readNumber ends 0 (ds ++ stop :: rest) = .ok (number 0 ds,stop :: rest) := by
  obtain ⟨front,behind⟩ := @takeWhile_digits ds rest stop all (apart stop member)
  have found : ∃ ch ∈ ends, (stop :: rest).head? = some ch := ⟨stop,member,rfl⟩
  rw [readNumber_eq apart _ (Nat.two_pow_pos 31),front,behind,if_pos small,if_pos found]

theorem id2register_dot {ds id : Text} (all : ∀ ch ∈ ds, isDigit ch = true) (small : number 0 ds < 2 ^ 31) :
    t.id2register (letterR :: (ds ++ dot :: id)) = t.findRegister (number 0 ds) STACK_TOP_FRAME id := by
  have none_ : ¬(dot :: id).head? = some atSign := by simp [dot,atSign]
  unfold Target.id2register
  rw [if_neg (by simp),List.tail_cons,readNumber_front both_apart all List.mem_cons_self small]
  simp only [readFrame,if_neg none_,List.tail_cons]

theorem id2register_at {ds fs id : Text} (all : ∀ ch ∈ ds, isDigit ch = true) (small : number 0 ds < 2 ^ 31)
    (all' : ∀ ch ∈ fs, isDigit ch = true) (small' : number 0 fs < 2 ^ 31) :
    t.id2register (letterR :: (ds ++ atSign :: (fs ++ dot :: id))) = t.findRegister (number 0 ds) (Int32.ofNat (number 0 fs)) id := by
  unfold Target.id2register
  rw [if_neg (by simp),List.tail_cons,readNumber_front both_apart all (by simp) small]
  simp only [readFrame,List.head?_cons,if_true,List.tail_cons,readNumber_front dot_apart all' List.mem_cons_self small']

end Reading

section Claims

/-- The ID has room, and its context is the one that is found by its ID and has not exited. -/
structure RoundTrips (t : Target κ) (ctx : κ) (frame : Int32) (reg : Nat) : Prop where
  top : 0 ≤ frame.toInt ∨ frame = STACK_TOP_FRAME
  small : reg < 2 ^ 31
  room : (decimal reg).length + (frameText frame).length + (t.id ctx).length + 2 < 256
  live : Live t (t.id ctx) ctx

/-- A text that is read stands for a register in the array of its context, and is an ID of a register. -/
def Sound (t : Target κ) (text : Text) : Prop :=
  t.id2register text ≠ .error .undefined ∧ ∀ ctx frame reg, t.id2register text = .ok (ctx,frame,reg) →
    reg < t.regCount ctx ∧ ∃ ctx' frame' reg', reg' < t.regCount ctx' ∧ t.register2id ctx' frame' reg' = text

/-- Numbers stay below 2^31. In a text with the ID of a context that is there they are written without zeros in front, and that of
the register is below the number of its registers; and the text has at most 255 characters. -/
def Acceptable (t : Target κ) (text : Text) : Prop :=
  text.head? = some letterR → number 0 (text.tail.takeWhile isDigit) < 2 ^ 31 ∧
    (∀ id, text.tail.dropWhile isDigit = dot :: id → ∀ ctx, Live t id ctx →
      Plain (text.tail.takeWhile isDigit) ∧ number 0 (text.tail.takeWhile isDigit) < t.regCount ctx ∧ text.length < 256) ∧
    ∀ rest, text.tail.dropWhile isDigit = atSign :: rest → number 0 (rest.takeWhile isDigit) < 2 ^ 31 ∧
      ∀ id, rest.dropWhile isDigit = dot :: id → ∀ ctx, Live t id ctx →
        (Plain (text.tail.takeWhile isDigit) ∧ Plain (rest.takeWhile isDigit)) ∧
          number 0 (text.tail.takeWhile isDigit) < t.regCount ctx ∧ text.length < 256

theorem frame_back {frame : Int32} (numbered : 0 ≤ frame.toInt) : Int32.ofNat frame.toInt.toNat = frame := by
  have less := frame.toInt_lt
  apply Int32.toInt_inj.mp
  rw [Int32.toInt_ofNat_of_lt (by omega)]
  omega

theorem id2register_error {body : Text} {stop : Stop} (run : readNumber [dot,atSign] 0 body = .error stop) :
    t.id2register (letterR :: body) = .error stop := by
  unfold Target.id2register
  rw [if_neg (by simp),List.tail_cons,run]

theorem id2register_at_error {ds rest : Text} (all : ∀ ch ∈ ds, isDigit ch = true) (small : number 0 ds < 2 ^ 31) {stop : Stop}
    (run : readNumber [dot] 0 rest = .error stop) : t.id2register (letterR :: (ds ++ atSign :: rest)) = .error stop := by
  unfold Target.id2register
  rw [if_neg (by simp),List.tail_cons,readNumber_front both_apart all (by simp) small]
  simp only [readFrame,List.head?_cons,if_true,List.tail_cons,run]

/-- What is read back, when the number of the register is one. -/
theorem register2id_back (t : Target κ) (frame : Int32) {m : Nat} (small : m < 2 ^ 31) (id : Text) :
    t.id2register (letterR :: (decimal m ++ (frameText frame ++ dot :: id))) =
      t.findRegister m (if frame.toInt < 0 then STACK_TOP_FRAME else frame) id := by
  have number := number_decimal m
  unfold frameText
  split
  next =>
    rw [List.nil_append,id2register_dot (decimal_isDigit m) (by rwa [number]),number]
  next numbered =>
    have numbered : 0 ≤ frame.toInt := Int.not_lt.mp numbered
    have less := frame.toInt_lt
    have value := number_decimal frame.toInt.toNat
    rw [intText_nonnegative numbered,List.cons_append,
      id2register_at (decimal_isDigit m) (by rwa [number]) (decimal_isDigit _) (by rw [value]; omega),number,value,frame_back numbered]

theorem roundTrip_iff (t : Target κ) (ctx : κ) (frame : Int32) (reg : Nat) :
    t.id2register (t.register2id ctx frame reg) = .ok (ctx,frame,reg) ↔ RoundTrips t ctx frame reg := by
  obtain ⟨k,text,whole,cut⟩ := register2id_eq t ctx frame reg
  rw [text]
  constructor
  · intro run
    by_cases negative : (Int32.ofNat reg).toInt < 0
    · have sign : intText (Int32.ofNat reg) = minus :: decimal (Int32.ofNat reg).toInt.natAbs := if_pos negative
      rw [sign] at run
      cases run
    · have positive : 0 ≤ (Int32.ofNat reg).toInt := Int.not_lt.mp negative
      have less := (Int32.ofNat reg).toInt_lt
      rw [intText_nonnegative positive,register2id_back t frame (by omega),findRegister_ok] at run
      obtain ⟨⟨found,alive⟩,top,same⟩ := run
      have id := id2ctx_id found
      have small : reg < 2 ^ 31 := by omega
      refine ⟨?_,small,?_,id ▸ ⟨found,alive⟩⟩
      · split at top
        next => exact .inr top
        next numbered => exact .inl (Int.not_lt.mp numbered)
      · rw [intText_ofNat small] at cut
        by_contra long
        exact cut (Nat.not_lt.mp long) id.symm
  · rintro ⟨top,small,room,live⟩
    rw [intText_ofNat small] at whole ⊢
    rw [whole room,register2id_back t frame small,findRegister_ok]
    refine ⟨live,?_,rfl⟩
    rcases top with numbered | rfl
    · rw [if_neg (Int.not_lt.mpr numbered)]
    · rfl

/-- The text is an ID of some register. -/
def Written (t : Target κ) (text : Text) : Prop :=
  ∃ ctx frame reg, reg < t.regCount ctx ∧ t.register2id ctx frame reg = text

theorem sound_find {frame : Int32} {reg : Nat} {id : Text} (run : t.id2register text = t.findRegister reg frame id) :
    Sound t text ↔ ∀ ctx, Live t id ctx → reg < t.regCount ctx ∧ Written t text := by
  unfold Sound
  rw [run]
  constructor
  · rintro ⟨-,sound⟩ ctx live
    exact sound ctx frame reg (findRegister_ok.mpr ⟨live,rfl,rfl⟩)
  · intro each
    refine ⟨findRegister_defined t reg frame id,fun ctx frame' reg' found => ?_⟩
    obtain ⟨live,-,rfl⟩ := findRegister_ok.mp found
    exact each ctx live

/-- An ID with the number of a frame or without. -/
theorem written_eq {ds fs id : Text} (digits : ∀ ch ∈ ds, isDigit ch = true) (written : Written t (letterR :: (ds ++ (fs ++ dot :: id))))
    (start : fs = [] ∨ fs.head? = some atSign) :
    Plain ds ∧ (letterR :: (ds ++ (fs ++ dot :: id))).length < 256 ∧ ∃ frame x, frameText frame ++ dot :: x = fs ++ dot :: id := by
  obtain ⟨ctx,frame,reg,-,same⟩ := written
  have short := register2id_short t ctx frame reg
  rw [same] at short
  obtain ⟨k,text,-,-⟩ := register2id_eq t ctx frame reg
  rw [text] at same
  have behind := (List.cons.inj same).2
  obtain ⟨stop,rest,front⟩ : ∃ stop rest, ¬InNumber stop ∧ frameText frame ++ dot :: (t.id ctx).take k = stop :: rest := by
    unfold frameText
    split
    · exact ⟨dot,_,fun inside => inside.1 rfl,rfl⟩
    · exact ⟨atSign,_,fun inside => inside.2 rfl,rfl⟩
  obtain ⟨stop',rest',front'⟩ : ∃ stop' rest', ¬InNumber stop' ∧ fs ++ dot :: id = stop' :: rest' := by
    rcases start with rfl | first
    · exact ⟨dot,_,fun inside => inside.1 rfl,rfl⟩
    · cases fs with
      | nil => cases first
      | cons ch fs =>
        cases first
        exact ⟨atSign,_,fun inside => inside.2 rfl,rfl⟩
  rw [front.2,front'.2] at behind
  obtain ⟨number,equal⟩ := front_unique (intText_inNumber _) (fun ch member => inNumber_digit (digits ch member)) front.1 front'.1 behind
  refine ⟨?_,short,frame,_,by rw [front.2,front'.2,equal]⟩
  rw [← number]
  exact intText_plain (by rwa [number])

theorem written_dot {ds id : Text} (digits : ∀ ch ∈ ds, isDigit ch = true) (small : number 0 ds < 2 ^ 31) (live : Live t id ctx)
    (inside : number 0 ds < t.regCount ctx) : Written t (letterR :: (ds ++ dot :: id)) ↔ Plain ds ∧ (letterR :: (ds ++ dot :: id)).length < 256 := by
  constructor
  · intro written
    obtain ⟨plain,short,-⟩ := @written_eq κ t ds [] id digits written (.inl rfl)
    exact ⟨plain,short⟩
  · rintro ⟨plain,short⟩
    obtain ⟨k,text,whole,-⟩ := register2id_eq t ctx STACK_TOP_FRAME (number 0 ds)
    have id := id2ctx_id live.1
    have front : intText (Int32.ofNat (number 0 ds)) = ds := by rw [intText_ofNat small,decimal_number digits plain]
    have top : frameText STACK_TOP_FRAME = [] := rfl
    refine ⟨ctx,STACK_TOP_FRAME,number 0 ds,inside,?_⟩
    rw [front,top,id] at whole text
    rw [text,whole (by simp only [List.length_cons,List.length_append,List.length_nil] at short ⊢; omega)]
    rfl

theorem written_at {ds fs id : Text} (digits : ∀ ch ∈ ds, isDigit ch = true) (small : number 0 ds < 2 ^ 31)
    (digits' : ∀ ch ∈ fs, isDigit ch = true) (small' : number 0 fs < 2 ^ 31) (live : Live t id ctx)
    (inside : number 0 ds < t.regCount ctx) : Written t (letterR :: (ds ++ atSign :: (fs ++ dot :: id))) ↔
      (Plain ds ∧ Plain fs) ∧ (letterR :: (ds ++ atSign :: (fs ++ dot :: id))).length < 256 := by
  constructor
  · intro written
    obtain ⟨plain,short,frame,x,same⟩ := @written_eq κ t ds (atSign :: fs) id digits written (.inr rfl)
    refine ⟨⟨plain,?_⟩,short⟩
    unfold frameText at same
    split at same
    · exact absurd (List.cons.inj same).1 (by decide)
    · obtain ⟨number,-⟩ := front_unique (intText_inNumber _) (fun ch member => inNumber_digit (digits' ch member))
        (fun inside => inside.1 rfl) (fun inside => inside.1 rfl) (List.cons.inj same).2
      rw [← number]
      exact intText_plain (by rwa [number])
  · rintro ⟨⟨plain,plain'⟩,short⟩
    obtain ⟨k,text,whole,-⟩ := register2id_eq t ctx (Int32.ofNat (number 0 fs)) (number 0 ds)
    have id := id2ctx_id live.1
    have front : intText (Int32.ofNat (number 0 ds)) = ds := by rw [intText_ofNat small,decimal_number digits plain]
    have frame : frameText (Int32.ofNat (number 0 fs)) = atSign :: fs := by
      have value := Int32.toInt_ofNat_of_lt small'
      unfold frameText
      rw [if_neg (by omega),intText_ofNat small',decimal_number digits' plain']
    refine ⟨ctx,Int32.ofNat (number 0 fs),number 0 ds,inside,?_⟩
    rw [front,frame,id] at whole text
    rw [text,whole (by simp only [List.length_cons,List.length_append] at short ⊢; omega)]
    rfl

theorem sound_error {err : Nat} (run : t.id2register text = .error (.error err)) : Sound t text := by
  unfold Sound
  rw [run]
  exact ⟨nofun,nofun⟩

theorem sound_undefined (run : t.id2register text = .error .undefined) : ¬Sound t text := fun sound => sound.1 run

theorem takeWhile_isDigit (l : Text) : ∀ ch ∈ l.takeWhile isDigit, isDigit ch = true :=
  fun ch member => List.all_eq_true.mp List.all_takeWhile ch member

/-- A text without a number of a frame. -/
theorem sound_dot {ds id : Text} (digits : ∀ ch ∈ ds, isDigit ch = true) (small : number 0 ds < 2 ^ 31) :
    Sound t (letterR :: (ds ++ dot :: id)) ↔
      ∀ ctx, Live t id ctx → Plain ds ∧ number 0 ds < t.regCount ctx ∧ (letterR :: (ds ++ dot :: id)).length < 256 := by
  rw [sound_find (id2register_dot digits small)]
  refine forall₂_congr fun ctx live => ?_
  constructor
  · rintro ⟨inside,written⟩
    obtain ⟨plain,short⟩ := (written_dot digits small live inside).mp written
    exact ⟨plain,inside,short⟩
  · rintro ⟨plain,inside,short⟩
    exact ⟨inside,(written_dot digits small live inside).mpr ⟨plain,short⟩⟩

/-- A text with a number of a frame, once both numbers are read. -/
theorem sound_at {ds fs id : Text} (digits : ∀ ch ∈ ds, isDigit ch = true) (small : number 0 ds < 2 ^ 31)
    (digits' : ∀ ch ∈ fs, isDigit ch = true) (small' : number 0 fs < 2 ^ 31) :
    Sound t (letterR :: (ds ++ atSign :: (fs ++ dot :: id))) ↔ ∀ ctx, Live t id ctx → (Plain ds ∧ Plain fs) ∧
      number 0 ds < t.regCount ctx ∧ (letterR :: (ds ++ atSign :: (fs ++ dot :: id))).length < 256 := by
  rw [sound_find (id2register_at digits small digits' small')]
  refine forall₂_congr fun ctx live => ?_
  constructor
  · rintro ⟨inside,written⟩
    obtain ⟨plain,short⟩ := (written_at digits small digits' small' live inside).mp written
    exact ⟨plain,inside,short⟩
  · rintro ⟨plain,inside,short⟩
    exact ⟨inside,(written_at digits small digits' small' live inside).mpr ⟨plain,short⟩⟩

/-- A text with the number of a register in front of that of a frame. -/
theorem sound_frame {ds rest : Text} (digits : ∀ ch ∈ ds, isDigit ch = true) (small : number 0 ds < 2 ^ 31) :
    Sound t (letterR :: (ds ++ atSign :: rest)) ↔ number 0 (rest.takeWhile isDigit) < 2 ^ 31 ∧
      ∀ id, rest.dropWhile isDigit = dot :: id → ∀ ctx, Live t id ctx → (Plain ds ∧ Plain (rest.takeWhile isDigit)) ∧
        number 0 ds < t.regCount ctx ∧ (letterR :: (ds ++ atSign :: rest)).length < 256 := by
  have digits' := takeWhile_isDigit rest
  have parts := List.takeWhile_append_dropWhile (p := isDigit) (l := rest)
  have read := readNumber_eq dot_apart rest (Nat.two_pow_pos 31)
  by_cases small' : number 0 (rest.takeWhile isDigit) < 2 ^ 31
  · rw [if_pos small'] at read
    by_cases found : ∃ ch ∈ [dot], (rest.dropWhile isDigit).head? = some ch
    · obtain ⟨ch,member,first⟩ := found
      obtain rfl := List.mem_singleton.mp member
      obtain ⟨id,behind⟩ := List.head?_eq_some_iff.mp first
      rw [behind] at parts ⊢
      have whole := @sound_at κ t ds (rest.takeWhile isDigit) id digits small digits' small'
      rw [parts] at whole
      rw [whole]
      constructor
      · intro each
        refine ⟨small',fun id' same => ?_⟩
        cases same
        exact each
      · rintro ⟨-,each⟩
        exact each id rfl
    · rw [if_neg found] at read
      refine ⟨fun _ => ⟨small',fun id behind => ?_⟩,fun _ => sound_error (id2register_at_error digits small read)⟩
      exact absurd ⟨dot,List.mem_cons_self,by rw [behind]; rfl⟩ found
  · rw [if_neg small'] at read
    refine ⟨fun sound => absurd sound (sound_undefined (id2register_at_error digits small read)),?_⟩
    rintro ⟨less,-⟩
    exact absurd less small'

theorem sound_body (t : Target κ) (body : Text) : Sound t (letterR :: body) ↔ number 0 (body.takeWhile isDigit) < 2 ^ 31 ∧
    (∀ id, body.dropWhile isDigit = dot :: id → ∀ ctx, Live t id ctx →
      Plain (body.takeWhile isDigit) ∧ number 0 (body.takeWhile isDigit) < t.regCount ctx ∧ (letterR :: body).length < 256) ∧
    ∀ rest, body.dropWhile isDigit = atSign :: rest → number 0 (rest.takeWhile isDigit) < 2 ^ 31 ∧
      ∀ id, rest.dropWhile isDigit = dot :: id → ∀ ctx, Live t id ctx →
        (Plain (body.takeWhile isDigit) ∧ Plain (rest.takeWhile isDigit)) ∧
          number 0 (body.takeWhile isDigit) < t.regCount ctx ∧ (letterR :: body).length < 256 := by
  have digits := takeWhile_isDigit body
  have parts := List.takeWhile_append_dropWhile (p := isDigit) (l := body)
  have read := readNumber_eq both_apart body (Nat.two_pow_pos 31)
  by_cases small : number 0 (body.takeWhile isDigit) < 2 ^ 31
  · rw [if_pos small] at read
    by_cases found : ∃ ch ∈ [dot,atSign], (body.dropWhile isDigit).head? = some ch
    · obtain ⟨ch,member,first⟩ := found
      obtain ⟨rest,behind⟩ := List.head?_eq_some_iff.mp first
      rw [behind] at parts ⊢
      rcases List.mem_cons.mp member with rfl | member
      · have whole := @sound_dot κ t (body.takeWhile isDigit) rest digits small
        rw [parts] at whole
        rw [whole]
        constructor
        · intro each
          refine ⟨small,fun id same => ?_,fun _ same => absurd (List.cons.inj same).1 (by decide)⟩
          cases same
          exact each
        · rintro ⟨-,each,-⟩
          exact each rest rfl
      · obtain rfl := List.mem_singleton.mp member
        have whole := @sound_frame κ t (body.takeWhile isDigit) rest digits small
        rw [parts] at whole
        rw [whole]
        constructor
        · intro each
          refine ⟨small,fun _ same => absurd (List.cons.inj same).1 (by decide),fun rest' same => ?_⟩
          cases same
          exact each
        · rintro ⟨-,-,each⟩
          exact each rest rfl
    · rw [if_neg found] at read
      refine ⟨fun _ => ⟨small,fun id behind => ?_,fun rest behind => ?_⟩,fun _ => sound_error (id2register_error read)⟩
      · exact absurd ⟨dot,List.mem_cons_self,by rw [behind]; rfl⟩ found
      · exact absurd ⟨atSign,by simp,by rw [behind]; rfl⟩ found
  · rw [if_neg small] at read
    refine ⟨fun sound => absurd sound (sound_undefined (id2register_error read)),?_⟩
    rintro ⟨less,-⟩
    exact absurd less small

theorem sound_iff (t : Target κ) (text : Text) : Sound t text ↔ Acceptable t text := by
  unfold Acceptable
  by_cases start : text.head? = some letterR
  · obtain ⟨body,rfl⟩ := List.head?_eq_some_iff.mp start
    rw [sound_body]
    exact ⟨fun sound _ => sound,fun acceptable => acceptable rfl⟩
  · have run : t.id2register text = .error (.error ERR_INV_CONTEXT) := if_pos start
    exact ⟨fun _ same => absurd same start,fun _ => sound_error run⟩

/-- An ID is read back exactly when it has room and can be found; and a text that is read is an ID in the array of its context
exactly when its numbers are plain and below what they have to be. -/
theorem register_ids_iff (t : Target κ) :
    (∀ ctx frame reg, t.id2register (t.register2id ctx frame reg) = .ok (ctx,frame,reg) ↔ RoundTrips t ctx frame reg) ∧
      ∀ text, Sound t text ↔ Acceptable t text :=
  ⟨roundTrip_iff t,sound_iff t⟩

/-- One context with two registers. Its ID is empty. -/
def oneContext : Target Unit := ⟨[()],fun _ => [],fun _ => false,fun _ => 2,fun _ => by decide⟩

/-- The text `R9.` stands for a register behind the array, `R01.` is not an ID, and a frame of no number is not read back. -/
theorem beyond_the_array : oneContext.id2register [letterR,0x39,dot] = .ok ((),STACK_TOP_FRAME,9) ∧
    ¬Sound oneContext [letterR,0x39,dot] ∧ ¬Sound oneContext [letterR,0x30,0x31,dot] ∧
    oneContext.id2register (oneContext.register2id () (-1) 0) = .ok ((),STACK_TOP_FRAME,0) := by
  have first : oneContext.id2register [letterR,0x39,dot] = .ok ((),STACK_TOP_FRAME,9) := by decide +kernel
  refine ⟨first,?_,?_,by decide +kernel⟩
  · rintro ⟨-,inside⟩
    exact absurd (inside _ _ _ first).1 (by decide)
  · rintro ⟨-,inside⟩
    have second : oneContext.id2register [letterR,0x30,0x31,dot] = .ok ((),STACK_TOP_FRAME,1) := by decide +kernel
    obtain ⟨_,ctx,frame,reg,small,same⟩ := inside _ _ _ second
    have below : reg = 0 ∨ reg = 1 := by
      have : reg < 2 := small
      omega
    obtain ⟨k,text,-,-⟩ := register2id_eq oneContext ctx frame reg
    rw [text] at same
    rcases below with rfl | rfl
    · have number : intText (Int32.ofNat 0) = [0x30] := by decide +kernel
      rw [number] at same
      have behind := (List.cons.inj (List.cons.inj same).2).2
      unfold frameText at behind
      split at behind <;> exact absurd (List.cons.inj behind).1 (by decide)
    · have number : intText (Int32.ofNat 1) = [0x31] := by decide +kernel
      rw [number] at same
      exact absurd (List.cons.inj (List.cons.inj same).2).1 (by decide)

end Claims

end Tcf.RegisterIds
