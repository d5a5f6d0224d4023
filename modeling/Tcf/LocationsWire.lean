import Tcf.JsonCarried
import Tcf.CodeAreasWire
import Tcf.Locations

/-! What the proxy reads of a location or a frame is what the agent wrote, whatever its static
arrays held before. -/
namespace Tcf.Locations

open Framing Json CodeAreas

/-! Values. -/

section Values

variable {σ ρ ι : Type} {S : OutStream σ} {e : Readers ρ}

theorem reads_int64 (n : BitVec 64) : Reads jsonReadInt64 ((signed n.toInt).map .byte) n := by
  have low := @BitVec.le_toInt 64 n
  have high := @BitVec.toInt_lt 64 n
  have reads := reads_map (BitVec.ofInt 64) (@reads_long n.toInt (by omega) (by omega))
  rwa [BitVec.ofInt_toInt] at reads

theorem reads_unsigned {w : Nat} (narrow : w ≤ 64) (n : BitVec w) :
    Reads (jsonReadUnsigned w) ((decimal n.toNat).map .byte) n := by
  have small : n.toNat < 2^64 := Nat.lt_of_lt_of_le n.isLt (Nat.pow_le_pow_right (by omega) narrow)
  have reads := reads_map (BitVec.ofNat w) (reads_ulong small)
  rwa [BitVec.ofNat_toNat,BitVec.setWidth_eq] at reads

/-- A number that fits into `w` bits comes back through a `long`. -/
theorem reads_as {w : Nat} {n : Int} (low : -2^63 ≤ n) (high : n < 2^63) :
    Reads (jsonReadAs w) ((signed n).map .byte) (BitVec.ofInt w n) := reads_map (BitVec.ofInt w) (reads_long low high)

theorem reads_boolean (b : Bool) : Reads jsonReadBoolean ((if b then literal "true" else literal "false").map .byte) b := by
  cases b <;> exact fun _ _ _ => rfl

theorem appends_boolean (b : Bool) :
    Appends S (jsonWriteBoolean S · b) ((if b then literal "true" else literal "false").map .byte) := appends_string _

theorem reads_id {id : List UInt8} (short : id.length < 256) (nulFree : 0 ∉ id) :
    Reads readId ((quoted id).map .byte) (id,id.length) := by
  intro stop rest _
  obtain ⟨after,run,same⟩ := jsonReadString_whole short nulFree (.byte stop :: rest)
  simp only [readId,run,Code.ok_bind,same,Code.pure_eq]

theorem encode64_length (data : List UInt8) : data.length ≤ (encode64 data).length := by
  induction data using encode64.induct with
  | case1 => exact Nat.zero_le _
  | case2 => exact Nat.le_add_left 1 3
  | case3 => exact Nat.le_add_left 2 2
  | case4 a b c rest ih =>
    simp only [encode64,List.length_append,List.length_cons,List.length_nil]
    omega

theorem binaryText_length (encoding : Encoding) (data : List UInt8) : data.length ≤ (binaryText encoding data).length := by
  cases encoding with
  | binary =>
    simp only [binaryText,List.length_append,List.length_cons]
    omega
  | base64 =>
    have length := encode64_length data
    simp only [binaryText,List.length_append,List.length_cons]
    omega

theorem reads_binary {data : List UInt8} (small : data.length < 2^64) (encoding : Encoding) :
    Reads (readBinary e) ((binaryText encoding data).map .byte) (some data) := by
  intro stop rest _
  have length := binaryText_length encoding data
  have enough : data.length < ((binaryText encoding data).map Item.byte ++ .byte stop :: rest).length + 1 := by
    rw [List.length_append,List.length_map]
    omega
  exact jsonReadAllocBinary_text small enough (.byte stop :: rest)

/-- Its encoding is up to the stream. -/
theorem carried_binary {data : List UInt8} (small : data.length < 2^64) :
    Carried S Any (jsonWriteBinary S · data) (fun _ : ι => readBinary e) fun _ => some data := by
  intro s items holds
  obtain ⟨final,run,written⟩ := writeInParts_holds holds (.inl (by simp) : data.length = [data].flatten.length ∨ data.length = 0)
  rw [List.flatten_singleton] at written
  exact ⟨final,_,(jsonWriteBinary_parts s data).trans run,written,trivial,fun _ => reads_binary small _⟩

theorem carried_orNull {α β : Type} {write : α → σ → Code σ} {read : ι → Input → Code (β × Input)} {value : Option α}
    (result : ι → Option α → β) (null : ∀ i, Reads (read i) ((literal "null").map .byte) (result i none))
    (some_ : ∀ x ∈ value, Carried S Any (write x) read fun i => result i (some x)) :
    Carried S Any (writeOrNull S write value) read fun i => result i value := by
  cases value with
  | none => exact carried_text (appends_string _) trivial null
  | some x => exact some_ x rfl

end Values

/-! The scope of register numbers. -/

section Scope

variable {σ : Type} {S : OutStream σ}

def scopeMembers (loc : DwarfLocation) : List Input :=
  optional (loc.regIdScope.osAbi ≠ 0) "ABI" (signed loc.regIdScope.osAbi.toNat) ++
  (optional (loc.regIdScope.fpAbi ≠ 0) "FPABI" (signed loc.regIdScope.fpAbi.toNat) ++
  (optional True "ELF64" (if loc.regIdScope.elf64 then literal "true" else literal "false") ++
  (optional True "RegIdType" (signed loc.regIdScope.idType.toNat) ++
  (optional True "AddrSize" (signed loc.addrSize.toInt) ++
  optional True "BigEndian" (if loc.regIdScope.bigEndian then literal "true" else literal "false")))))

def scopeText (loc : DwarfLocation) : Input :=
  .byte 0x7b :: separated 0x7d (memberText "Machine" ((signed loc.regIdScope.machine.toNat).map .byte) :: scopeMembers loc)

/-- A member and the comma behind it, on a condition. -/
theorem appends_before {c : Prop} [Decidable c] {name : String} {value : σ → Code σ} {text : List UInt8}
    (isName : IsName name) (writes : Appends S value (text.map .byte)) :
    Appends S (writeIf c fun s => do let s ← writeMember S name value s; S.writeByte s comma)
      (if c then memberText name (text.map .byte) ++ [.byte comma] else []) :=
  appends_if fun _ => appends_bind (appends_member isName writes) (appends_byte comma)

theorem comma_before (c : Prop) [Decidable c] (text rest : Input) :
    .byte comma :: ((if c then text ++ [.byte comma] else []) ++ rest) =
      (if c then .byte comma :: text else []) ++ .byte comma :: rest := by
  by_cases holds : c <;> simp [holds]

theorem appends_scope (loc : DwarfLocation) : Appends S (writeScope S loc) (scopeText loc) := by
  have text : Appends S (writeScope S loc) _ := appends_bind (appends_byte (S := S) 0x7b) (appends_bind
    (appends_member (by decide : IsName "Machine") (appends_long loc.regIdScope.machine.toNat)) (appends_bind
    (appends_byte comma) (appends_bind
    (appends_before (c := loc.regIdScope.osAbi ≠ 0) (by decide : IsName "ABI") (appends_long loc.regIdScope.osAbi.toNat)) (appends_bind
    (appends_before (c := loc.regIdScope.fpAbi ≠ 0) (by decide : IsName "FPABI") (appends_long loc.regIdScope.fpAbi.toNat)) (appends_bind
    (appends_member (by decide : IsName "ELF64") (appends_boolean loc.regIdScope.elf64)) (appends_bind
    (appends_byte comma) (appends_bind
    (appends_member (by decide : IsName "RegIdType") (appends_long loc.regIdScope.idType.toNat)) (appends_bind
    (appends_byte comma) (appends_bind
    (appends_member (by decide : IsName "AddrSize") (appends_long loc.addrSize.toInt)) (appends_bind
    (appends_byte comma) (appends_bind
    (appends_member (by decide : IsName "BigEndian") (appends_boolean loc.regIdScope.bigEndian))
    (appends_byte 0x7d))))))))))))
  simp only [List.singleton_append,comma_before] at text
  simp only [scopeText,separated,scopeMembers,List.flatMap_append,optional_text,if_true,List.append_assoc]
  exact text

/-- A member that is always written. -/
theorem given_true {α : Type} (value old : α) : given True value old = value := if_pos trivial

theorem ofInt_toNat {w : Nat} (n : BitVec w) : BitVec.ofInt w n.toNat = n := by simp

theorem runs_param {α : Type} {c : Prop} [Decidable c] {name : String} {read : Input → Code (α × Input)} {text : List UInt8}
    {value : α} (st : DwarfLocation) (set : α → DwarfLocation) (old : α) (same : set old = st) (isName : IsName name)
    (props : readDwarfLocationParams (literal name) st = fun inp => do let (v,inp) ← read inp; pure (set v,inp))
    (reads : c → Reads read (text.map .byte) value) :
    Runs (readMember readDwarfLocationParams) st (optional c name text) (set (given c value old)) :=
  runs_given set old same isName props reads

/-- `code` was read before. -/
theorem reads_scope (loc : DwarfLocation) :
    Reads (jsonReadStruct readDwarfLocationParams ⟨⟨0,0,0,false,false,0⟩,loc.code,0⟩) (scopeText loc) (true,loc) := by
  have machine := loc.regIdScope.machine.isLt
  have osAbi := loc.regIdScope.osAbi.isLt
  have fpAbi := loc.regIdScope.fpAbi.isLt
  have idType := loc.regIdScope.idType.isLt
  have low := @BitVec.le_toInt 64 loc.addrSize
  have high := @BitVec.toInt_lt 64 loc.addrSize
  have first : Reads (readMember readDwarfLocationParams ⟨⟨0,0,0,false,false,0⟩,loc.code,0⟩)
      (memberText "Machine" ((signed loc.regIdScope.machine.toNat).map .byte))
      ⟨⟨loc.regIdScope.machine,0,0,false,false,0⟩,loc.code,0⟩ := by
    have reads := reads_map (fun n => (⟨⟨n,0,0,false,false,0⟩,loc.code,0⟩ : DwarfLocation))
      (@reads_as 16 loc.regIdScope.machine.toNat (by omega) (by omega))
    rw [ofInt_toNat] at reads
    exact reads_member (by decide) reads
  have abi := fun st : DwarfLocation => runs_param (c := loc.regIdScope.osAbi ≠ 0) st
    (fun n => { st with regIdScope := { st.regIdScope with osAbi := n } }) st.regIdScope.osAbi rfl
    (by decide : IsName "ABI") rfl fun _ => @reads_as 8 loc.regIdScope.osAbi.toNat (by omega) (by omega)
  have fpAbi := fun st : DwarfLocation => runs_param (c := loc.regIdScope.fpAbi ≠ 0) st
    (fun n => { st with regIdScope := { st.regIdScope with fpAbi := n } }) st.regIdScope.fpAbi rfl
    (by decide : IsName "FPABI") rfl fun _ => @reads_as 8 loc.regIdScope.fpAbi.toNat (by omega) (by omega)
  have elf64 := fun st : DwarfLocation => runs_param (c := True) st
    (fun b => { st with regIdScope := { st.regIdScope with elf64 := b } }) st.regIdScope.elf64 rfl
    (by decide : IsName "ELF64") rfl fun _ => reads_boolean loc.regIdScope.elf64
  have idType := fun st : DwarfLocation => runs_param (c := True) st
    (fun n => { st with regIdScope := { st.regIdScope with idType := n } }) st.regIdScope.idType rfl
    (by decide : IsName "RegIdType") rfl fun _ => @reads_as 8 loc.regIdScope.idType.toNat (by omega) (by omega)
  have addrSize := fun st : DwarfLocation => runs_param (c := True) st
    (fun n => { st with addrSize := n }) st.addrSize rfl
    (by decide : IsName "AddrSize") rfl fun _ => @reads_as 64 loc.addrSize.toInt (by omega) (by omega)
  have bigEndian := fun st : DwarfLocation => runs_param (c := True) st
    (fun b => { st with regIdScope := { st.regIdScope with bigEndian := b } }) st.regIdScope.bigEndian rfl
    (by decide : IsName "BigEndian") rfl fun _ => reads_boolean loc.regIdScope.bigEndian
  have others := (abi ⟨⟨loc.regIdScope.machine,0,0,false,false,0⟩,loc.code,0⟩).append ((fpAbi _).append ((elf64 _).append
    ((idType _).append ((addrSize _).append (bigEndian _)))))
  simp only [given_true,ofInt_toNat,BitVec.ofInt_toInt,given_nonzero] at others
  exact readBracketed_text (.inl ⟨rfl,rfl⟩) (begins_member _ _) (.cons first others)

end Scope

/-! Commands. -/

section Commands

variable {σ ρ ι : Type} {S : OutStream σ} {e : Readers ρ}

/-- Arguments a command can have: a register that is not NULL, no more code than a `size_t` counts, and as many bytes
of a value as its bits need; in the code that sum has 32 bits. -/
def Whole {ρ : Type} : (f : Form) → Args ρ f → Prop
  | .reg, reg => (reg : Option ρ) ≠ none
  | .loc, loc => ∀ code ∈ DwarfLocation.code loc, code.length < 2^64
  | .piece, p => ∀ value ∈ Piece.value p, (Piece.bitSize p).toNat + 7 < 2^32 ∧
      value.length = ((Piece.bitSize p).toNat + 7) / 8
  | _, _ => True

theorem carried_id (reg : ρ) :
    Carried S Any (writeRegister S e.registers reg) (fun _ : ι => readId) fun _ =>
      (e.registers.register2id reg,(e.registers.register2id reg).length) := by
  have short := e.registers.short reg
  have nulFree := e.registers.nulFree reg
  exact carried_text (appends_quoted (by omega) nulFree []) trivial fun _ => reads_id short nulFree

theorem lookUp_id (back : e.registers.RoundTrip) (reg : ρ) (error : Nat) :
    lookUp e (e.registers.register2id reg) error = (some reg,error) := by rw [lookUp,back]

/-- A register of a piece, which may be NULL. -/
theorem carried_piece_register (back : e.registers.RoundTrip) (reg : Option ρ) (error : ι → Nat) :
    Carried S Any (writeOrNull S (writeRegister S e.registers) reg) (fun i => readPieceRegister e (error i)) fun i => (reg,error i) := by
  apply carried_orNull fun i reg => (reg,error i)
  · exact fun _ _ _ _ => rfl
  · intro reg _
    have positive : ((e.registers.register2id reg).length : Int) > 0 := by
      have length := List.length_pos_of_ne_nil (e.registers.named reg)
      omega
    have mapped := carried_map (fun i p => if p.2 > 0 then lookUp e p.1 (error i) else (none,error i)) (carried_id (S := S) (e := e) reg)
    simp only [if_pos positive,lookUp_id back] at mapped
    exact mapped

theorem reads_no_binary : Reads (readBinary e) ((literal "null").map .byte) none := fun _ _ _ => rfl

theorem carried_code {code : Option (List UInt8)} (small : ∀ bytes ∈ code, bytes.length < 2^64) :
    Carried S Any (writeOrNull S (fun code s => jsonWriteBinary S s code) code) (fun _ : ι => readBinary e) fun _ => code :=
  carried_orNull (fun _ code => code) (fun _ => reads_no_binary) fun bytes given => carried_binary (small bytes given)

theorem carried_value {size : Nat} {value : Option (List UInt8)} (small : size < 2^64) (whole : ∀ bytes ∈ value, bytes.length = size) :
    Carried S Any (writeOrNull S (writeFirst S size) value) (fun _ : ι => readBinary e) fun _ => value := by
  apply carried_orNull (fun _ value => value) (fun _ => reads_no_binary)
  intro bytes given
  have length := whole bytes given
  have first : writeFirst S size bytes = fun s => jsonWriteBinary S s bytes := by
    funext s
    rw [writeFirst,if_pos (Nat.le_of_eq length.symm),List.take_of_length_le (Nat.le_of_eq length)]
  rw [first]
  exact carried_binary (by omega)

theorem carried_ulong {w : Nat} (narrow : w ≤ 64) (n : BitVec w) :
    Carried S Any (jsonWriteUlong S · n.toNat) (fun _ : ι => jsonReadUnsigned w) fun _ => n :=
  carried_text (appends_ulong n.toNat) trivial fun _ => reads_unsigned narrow n

theorem carried_uint64 (n : BitVec 64) : Carried S Any (jsonWriteUint64 S · n.toNat) (fun _ : ι => jsonReadUint64) fun _ => n :=
  carried_text (appends_ulong n.toNat) trivial fun _ => reads_uint64 n

theorem carried_boolean (b : Bool) : Carried S Any (jsonWriteBoolean S · b) (fun _ : ι => jsonReadBoolean) fun _ => b :=
  carried_text (appends_boolean b) trivial fun _ => reads_boolean b

theorem carried_args (back : e.registers.RoundTrip) {f : Form} {args : Args ρ f} (whole : Whole f args) (error : ι → Nat) :
    Carried S Stops (writeArgs S e.registers f args) (fun i => readArgs e f (error i)) fun i => (args,error i) := by
  cases f with
  | plain => exact carried_nothing _
  | num =>
    have number : Carried S Any (jsonWriteLong S · (BitVec.toInt args)) (fun _ : ι => jsonReadInt64) fun _ => args :=
      carried_text (appends_long _) trivial fun _ => reads_int64 args
    exact carried_comma (carried_map (fun i num => ((num : Args ρ .num),error i)) number)
  | argNo =>
    have number : Carried S Any (jsonWriteUlong S · (BitVec.toNat args)) (fun _ : ι => jsonReadUnsigned 32) fun _ => args :=
      carried_ulong (by decide) args
    exact carried_comma (carried_map (fun i no => ((no : Args ρ .argNo),error i)) number)
  | reg =>
    cases args with
    | none => exact absurd rfl whole
    | some reg =>
      have mapped := carried_map (fun i p => lookUp e p.1 (error i)) (carried_id (S := S) (e := e) reg)
      simp only [lookUp_id back] at mapped
      exact carried_comma mapped
  | mem =>
    obtain ⟨size,bigEndian⟩ := args
    have boolean := carried_map (fun i b => ((⟨size,b⟩ : Args ρ .mem),error i)) (carried_boolean (S := S) bigEndian)
    apply carried_comma
    apply carried_bind any_append (carried_ulong (by decide) size)
    exact carried_comma boolean
  | loc =>
    have scope : Carried S Any (writeScope S args) (fun _ : ι => jsonReadStruct readDwarfLocationParams _) fun _ => (true,args) :=
      carried_text (appends_scope args) trivial fun _ => reads_scope args
    have mapped := carried_map (fun i p => ((p.2 : Args ρ .loc),error i)) scope
    apply carried_comma
    apply carried_bind any_append (carried_code whole)
    exact carried_comma mapped
  | piece =>
    obtain ⟨value,reg,bitOffs,bitSize⟩ := args
    have sum (given : value ≠ none) : (bitSize + 7).toNat = bitSize.toNat + 7 := by
      obtain ⟨bytes,rfl⟩ := Option.ne_none_iff_exists'.mp given
      have bound := (whole bytes rfl).1
      dsimp only at bound
      rw [BitVec.toNat_add]
      exact Nat.mod_eq_of_lt bound
    have bytes_ (bytes : List UInt8) (given : bytes ∈ value) : bytes.length = (bitSize + 7).toNat / 8 := by
      rw [sum (by rw [given]; simp)]
      exact (whole bytes given).2
    have small : (bitSize + 7).toNat / 8 < 2^64 := by
      have bound := (bitSize + 7).isLt
      omega
    have good : ¬(value ≠ none ∧ (value.getD []).length < (bitSize + 7).toNat / 8) := by
      rintro ⟨given,short⟩
      obtain ⟨bytes,rfl⟩ := Option.ne_none_iff_exists'.mp given
      exact Nat.ne_of_lt short (bytes_ bytes rfl)
    have value_ := carried_checked (fun i value => ((⟨value,reg,bitOffs,bitSize⟩ : Args ρ .piece),error i))
      (fun value => value ≠ none ∧ (value.getD []).length < (bitSize + 7).toNat / 8) (fun _ => good)
      (@carried_value σ ρ ι S e _ value small bytes_)
    apply carried_comma
    apply carried_bind any_append (carried_ulong (by decide) bitOffs)
    apply carried_comma
    apply carried_bind any_append (carried_ulong (by decide) bitSize)
    apply carried_comma
    apply carried_bind any_append (carried_piece_register back reg error)
    exact carried_comma value_

theorem begins_signed (n : Int) : Begins ((signed n).map .byte) := by
  have begins_decimal (k : Nat) : Begins ((decimal k).map .byte) := by
    obtain ⟨digits,some_⟩ := decimal_digits k
    obtain ⟨ch,ds,split⟩ := List.exists_cons_of_ne_nil some_
    obtain ⟨low,high⟩ := digits ch (by rw [split]; exact List.mem_cons_self)
    refine ⟨ch,ds.map .byte,by rw [split]; rfl,isSpace_digit ⟨low,high⟩,?_,?_⟩
    · rintro rfl
      exact absurd high (by decide)
    · rintro rfl
      exact absurd high (by decide)
  unfold signed
  split
  · exact ⟨0x2d,(decimal n.natAbs).map .byte,rfl,rfl,by decide,by decide⟩
  · exact begins_decimal _

/-- The commands of a rule or a value can be written, and are read. -/
def Sound (cmds : List (LocationExpressionCommand ρ)) : Prop := ∀ cmd ∈ cmds, Whole (form cmd.cmd) cmd.args

/-- One more command. -/
def addCommand (st : Scratch ρ) (cmd : LocationExpressionCommand ρ) : Scratch ρ :=
  { st with locationCmds := st.locationCmds ++ [cmd] }

theorem carried_command (back : e.registers.RoundTrip) {cmd : LocationExpressionCommand ρ} (whole : Whole (form cmd.cmd) cmd.args)
    (st : ι → Scratch ρ) :
    Carried S Begins (writeCommand S e.registers cmd) (fun i => readLocationCommand e (st i)) fun i => addCommand (st i) cmd := by
  have args := carried_map
    (fun i (p : Args ρ (form cmd.cmd) × Nat) =>
      ({ st i with locationCmds := (st i).locationCmds ++ [⟨cmd.cmd,p.1⟩], id2registerError := p.2 } : Scratch ρ))
    (carried_args (S := S) back whole fun i => (st i).id2registerError)
  apply carried_bind begins_append (carried_text (appends_long cmd.cmd.toInt) (begins_signed _) fun _ => reads_int cmd.cmd)
  exact args

theorem foldl_addCommand (st : Scratch ρ) (cmds : List (LocationExpressionCommand ρ)) :
    cmds.foldl addCommand st = { st with locationCmds := st.locationCmds ++ cmds } := by
  induction cmds generalizing st with
  | nil => simp
  | cons cmd cmds ih => simp [ih,addCommand]

/-- A loop over an array. -/
theorem writeItems_carried {α τ : Type} {write : α → σ → Code σ} {item : τ → Input → Code (τ × Input)} {add : τ → α → τ} {xs : List α}
    (each : ∀ x ∈ xs, ∀ st : ι → τ, Carried S Begins (write x) (fun i => item (st i)) fun i => add (st i) x) (cnt : Nat) (st : ι → τ)
    (s : σ) (items : List Item) (holds : S.Holds s items) :
    ∃ next texts, writeItems S write cnt xs s = .ok next ∧ S.Holds next (items ++ joined cnt texts) ∧
      Taken item st (fun i => xs.foldl add (st i)) texts := by
  induction xs generalizing cnt st s items with
  | nil => exact ⟨s,[],rfl,by simpa [joined] using holds,taken_nothing st⟩
  | cons x xs ih =>
    obtain ⟨here,later⟩ := List.forall_mem_cons.mp each
    have behind : Appends S (writeIf (cnt > 0) (S.writeByte · comma)) _ := appends_if fun _ => appends_byte comma
    obtain ⟨s₁,run₁,holds₁⟩ := behind s items holds
    obtain ⟨s₂,text,run₂,holds₂,begins,reads⟩ := here st s₁ _ holds₁
    obtain ⟨next,texts,run₃,holds₃,taken⟩ := ih later (cnt + 1) (fun i => add (st i) x) s₂ _ holds₂
    refine ⟨next,text :: texts,?_,by simpa [joined] using holds₃,taken_cons begins reads taken⟩
    simp only [writeItems,run₁,Code.ok_bind,run₂,run₃]

theorem carried_array {α τ : Type} {opening close : UInt8}
    (brackets : opening = 0x7b ∧ close = 0x7d ∨ opening = 0x5b ∧ close = 0x5d) {write : α → σ → Code σ}
    {item : τ → Input → Code (τ × Input)} {add : τ → α → τ} {xs : List α}
    (each : ∀ x ∈ xs, ∀ st : ι → τ, Carried S Begins (write x) (fun i => item (st i)) fun i => add (st i) x) (st : ι → τ) :
    Carried S Begins (writeBracketed S opening close write xs) (fun i => readBracketed opening close item (st i))
      fun i => (true,xs.foldl add (st i)) :=
  carried_bracketed brackets fun s items holds => writeItems_carried each 0 st s items holds

/-- What is read through a struct or an array is what comes of its result. -/
theorem carried_through {α β : Type} {P : Input → Prop} {write : σ → Code σ} {read : ι → Input → Code (α × Input)} {value : ι → α}
    (next : ι → α × Input → Code (β × Input)) (result : ι → β) (carried : Carried S P write read value)
    (same : ∀ i inp, next i (value i,inp) = .ok (result i,inp)) :
    Carried S P write (fun i inp => read i inp >>= next i) result := by
  intro s items holds
  obtain ⟨final,text,run,holds',begins,reads⟩ := carried s items holds
  refine ⟨final,text,run,holds',begins,?_⟩
  intro i stop rest out
  simp only [reads i stop rest out,Code.ok_bind,same]

/-- After an array of commands. -/
def withCommands (st : Scratch ρ) (cmds : Option (List (LocationExpressionCommand ρ))) : Scratch ρ :=
  { st with locationCmds := cmds.getD [] }

/-- Whatever `location_cmds` held, the array is what was written. -/
theorem carried_commands (back : e.registers.RoundTrip) (size : Nat → Nat) {cmds : Option (List (LocationExpressionCommand ρ))}
    (sound : ∀ list ∈ cmds, Sound list ∧ size list.length ≤ e.room) (st : ι → Scratch ρ) :
    Carried S Any (writeCommands S e.registers cmds) (fun i => readCommandArray e size (st i)) fun i => (cmds,withCommands (st i) cmds) := by
  apply carried_orNull fun i cmds => (cmds,withCommands (st i) cmds)
  · exact fun _ _ _ _ => rfl
  · intro list given
    obtain ⟨whole,fits⟩ := sound list given
    have array := carried_array (S := S) (.inr ⟨rfl,rfl⟩) (fun cmd member => carried_command back (whole cmd member))
      fun i => { st i with locationCmds := [] }
    simp only [foldl_addCommand,List.nil_append] at array
    apply carried_through _ _ (carried_any array)
    intro i inp
    simp only [if_true,locAlloc,if_pos fits,Code.pure_eq,Code.ok_bind,withCommands,Option.getD_some]

end Commands

/-! Locations. -/

section Location

variable {σ ρ ι : Type} {S : OutStream σ} {e : Readers ρ}

def addDiscriminant (st : Scratch ρ) (range : DiscriminantRange) : Scratch ρ :=
  { st with discriminantLst := st.discriminantLst ++ [range] }

theorem foldl_addDiscriminant (st : Scratch ρ) (ranges : List DiscriminantRange) :
    ranges.foldl addDiscriminant st = { st with discriminantLst := st.discriminantLst ++ ranges } := by
  induction ranges generalizing st with
  | nil => simp
  | cons range ranges ih => simp [ih,addDiscriminant]

theorem signed_first (n : Int) (rest : Input) :
    ∃ ch more, (signed n).map Item.byte ++ rest = .byte ch :: more ∧ ch ≠ 0x7b := by
  obtain ⟨ch,more,split,_⟩ := begins_signed n
  refine ⟨ch,more ++ rest,by rw [split]; rfl,?_⟩
  rintro rfl
  unfold signed at split
  split at split
  · cases split
  · obtain ⟨digits,_⟩ := decimal_digits n.toNat
    cases value : decimal n.toNat with
    | nil => simp [value] at split
    | cons first later =>
      rw [value,List.map_cons] at split
      obtain ⟨same,_⟩ := List.cons_eq_cons.mp split
      obtain ⟨_,high⟩ := digits first (by rw [value]; exact List.mem_cons_self)
      rw [Item.byte.inj same] at high
      exact absurd high (by decide)

theorem reads_single (n : BitVec 64) (st : Scratch ρ) :
    Reads (readDiscriminantValue st) ((signed n.toInt).map .byte) (addDiscriminant st ⟨n,n⟩) := by
  intro stop rest out
  obtain ⟨ch,more,split,other⟩ := signed_first n.toInt (.byte stop :: rest)
  have peek : peekStream ((signed n.toInt).map Item.byte ++ .byte stop :: rest) = .ok (.byte ch) := by rw [split]; rfl
  have different : ¬Item.byte ch = .byte 0x7b := by simpa using other
  simp only [readDiscriminantValue,peek,Code.ok_bind,if_neg different,reads_int64 n stop rest out]
  rfl

def rangeText (range : DiscriminantRange) : Input :=
  .byte 0x7b :: separated 0x7d [memberText "X" ((signed range.x.toInt).map .byte),memberText "Y" ((signed range.y.toInt).map .byte)]

theorem reads_range (range : DiscriminantRange) (st : Scratch ρ) :
    Reads (readDiscriminantValue st) (rangeText range) (addDiscriminant st range) := by
  have x : Reads (readMember readDiscriminantRange ⟨0,0⟩) (memberText "X" ((signed range.x.toInt).map .byte)) ⟨range.x,0⟩ :=
    reads_member (by decide) (reads_map (fun n => (⟨n,0⟩ : DiscriminantRange)) (reads_int64 range.x))
  have y : Reads (readMember readDiscriminantRange ⟨range.x,0⟩) (memberText "Y" ((signed range.y.toInt).map .byte)) range :=
    reads_member (by decide) (reads_map (fun n => (⟨range.x,n⟩ : DiscriminantRange)) (reads_int64 range.y))
  have struct := readBracketed_text (.inl ⟨rfl,rfl⟩) (begins_member _ _) (.cons x (.cons y .nil))
  have appended := reads_map (fun p => addDiscriminant st p.2) struct
  exact appended

theorem carried_discriminant (range : DiscriminantRange) (st : ι → Scratch ρ) :
    Carried S Begins (writeDiscriminant S range) (fun i => readDiscriminantValue (st i)) fun i => addDiscriminant (st i) range := by
  obtain ⟨x,y⟩ := range
  by_cases same : x = y
  · subst same
    have single : writeDiscriminant S ⟨x,x⟩ = fun s => jsonWriteLong S s x.toInt := funext fun s => if_pos rfl
    rw [single]
    exact carried_text (appends_long _) (begins_signed _) fun i => reads_single x (st i)
  · have pair : writeDiscriminant S ⟨x,y⟩ = _ := funext fun s => if_neg same
    have text : Appends S (writeDiscriminant S ⟨x,y⟩) _ := pair ▸ appends_bind (appends_byte (S := S) 0x7b) (appends_bind
      (appends_member (by decide : IsName "X") (appends_long x.toInt)) (appends_bind
      (appends_next (by decide : IsName "Y") (appends_long y.toInt)) (appends_byte 0x7d)))
    have whole : Appends S (writeDiscriminant S ⟨x,y⟩) (rangeText ⟨x,y⟩) := by simpa [rangeText,separated] using text
    exact carried_text whole ⟨0x7b,_,rfl,rfl,by decide,by decide⟩ fun i => reads_range ⟨x,y⟩ (st i)

/-- A location that the code can write, and whose arrays the proxy finds room for. -/
structure LocationInfo.Sendable (room : Nat) (info : LocationInfo ρ) : Prop where
  cmds : ∀ list ∈ info.valueCmds, Sound list ∧ list.length * commandSize ≤ room
  discr : info.discrLst.length * 16 ≤ room

/-- An empty code range has no address. -/
def LocationInfo.settled (info : LocationInfo ρ) : LocationInfo ρ :=
  { info with codeAddr := given (info.codeSize ≠ 0) info.codeAddr 0 }

theorem carried_discriminants {list : List DiscriminantRange} (fits : list.length * 16 ≤ e.room) (st : ι → Scratch ρ)
    (info : LocationInfo ρ) :
    Carried S Begins (writeBracketed S 0x5b 0x5d (writeDiscriminant S) list) (fun i => readDiscriminantArray e (st i) info)
      fun i => ({ st i with discriminantLst := list },{ info with discrLst := list }) := by
  have array := carried_array (S := S) (.inr ⟨rfl,rfl⟩) (fun range (_ : range ∈ list) => carried_discriminant range)
    fun i => { st i with discriminantLst := [] }
  simp only [foldl_addDiscriminant,List.nil_append] at array
  apply carried_through _ _ array
  intro i inp
  simp only [if_true,locAlloc,if_pos fits,Code.ok_bind,Code.pure_eq]

/-- The static variables after a location. -/
def afterLocation (info : LocationInfo ρ) (st : Scratch ρ) : Scratch ρ :=
  { withCommands st info.valueCmds with discriminantLst := given (info.discrLst ≠ []) info.discrLst st.discriminantLst }

/-- A number among the members, on a condition. -/
theorem follows_number {α τ : Type} {c : Prop} [Decidable c] {name : String} {write : σ → Code σ} {text : Input}
    {read : Input → Code (α × Input)} {value : α} {callBack : List UInt8 → τ → Input → Code (τ × Input)} {set : α → ι → τ} {old : α}
    (isName : IsName name) (appends : Appends S write text) (reads : Reads read text value)
    (props : ∀ i, callBack (literal name) (set old i) = fun inp => do let (n,inp) ← read inp; pure (set n i,inp)) :
    Follows S (writeIf c (writeNext S name write)) (readMember callBack) (set old) (set (given c value old)) := by
  have member : Carried S Any write (fun i => callBack (literal name) (set old i)) (set value) := by
    simp only [props]
    exact carried_map (fun i n => set n i) (carried_text appends trivial fun _ => reads)
  apply follows_if
  · intro holds
    rw [given,if_pos holds]
    exact follows_next isName member
  · intro not
    rw [given,if_neg not]

theorem follows_discriminants {info : LocationInfo ρ} (fits : info.discrLst.length * 16 ≤ e.room) (st : ι → Scratch ρ)
    (read : LocationInfo ρ) (none_ : read.discrLst = []) :
    Follows S (writeIf (info.discrLst ≠ []) (writeNext S "Discriminant"
      (writeBracketed S 0x5b 0x5d (writeDiscriminant S) info.discrLst))) (readMember (readLocationAttrs e)) (fun i => (st i,read))
      fun i => ({ st i with discriminantLst := given (info.discrLst ≠ []) info.discrLst (st i).discriminantLst },
        { read with discrLst := info.discrLst }) := by
  apply follows_if
  · intro some_
    have member : Carried S Begins (writeBracketed S 0x5b 0x5d (writeDiscriminant S) info.discrLst)
        (fun i => readLocationAttrs e (literal "Discriminant") (st i,read)) _ := carried_discriminants fits st read
    simp only [given,if_pos some_]
    exact follows_next (by decide) member
  · intro empty
    obtain ⟨codeAddr,codeSize,bigEndian,argsCnt,valueCmds,discrLst⟩ := read
    cases none_
    funext i
    rw [given,if_neg empty,Decidable.not_not.mp empty]

theorem carried_location (back : e.registers.RoundTrip) {info : LocationInfo ρ} (ok : info.Sendable e.room) (st : ι → Scratch ρ) :
    Carried S Begins (inBrackets S 0x7b 0x7d (writeLocationAttrs S e.registers info))
      (fun i => jsonReadStruct (readLocationAttrs e) (st i,.zero)) fun i => (true,afterLocation info (st i),info.settled) := by
  apply carried_bracketed (.inl ⟨rfl,rfl⟩)
  have bigEndian : Carried S Any (jsonWriteBoolean S · info.bigEndian)
      (fun i => readLocationAttrs e (literal "BigEndian") (st i,.zero)) fun i => (st i,⟨0,0,info.bigEndian,0,none,[]⟩) :=
    carried_map (fun i b => (st i,(⟨0,0,b,0,none,[]⟩ : LocationInfo ρ))) (carried_boolean info.bigEndian)
  have valueCmds : Carried S Any (writeCommands S e.registers info.valueCmds)
      (fun i => readLocationAttrs e (literal "ValueCmds") (st i,⟨0,0,info.bigEndian,0,none,[]⟩))
      fun i => (withCommands (st i) info.valueCmds,⟨0,0,info.bigEndian,0,info.valueCmds.or none,[]⟩) :=
    carried_map (fun _ p => (p.2,(⟨0,0,info.bigEndian,0,p.1.or none,[]⟩ : LocationInfo ρ)))
      (carried_commands back (· * commandSize) ok.cmds st)
  rw [Option.or_none] at valueCmds
  let scratch := fun i => withCommands (st i) info.valueCmds
  let addr := given (info.codeSize ≠ 0) info.codeAddr 0
  have argsCnt : Follows S _ (readMember (readLocationAttrs e)) _ _ :=
    @follows_number σ ι S (BitVec 32) _ (info.argsCnt ≠ 0) _ "ArgCnt" _ _ _ info.argsCnt _
      (fun n i => (scratch i,⟨0,0,info.bigEndian,n,info.valueCmds,[]⟩)) 0 (by decide) (appends_ulong _)
      (reads_unsigned (by decide) info.argsCnt) fun _ => rfl
  have codeAddr : Follows S _ (readMember (readLocationAttrs e)) _ _ :=
    @follows_number σ ι S (BitVec 64) _ (info.codeSize ≠ 0) _ "CodeAddr" _ _ _ info.codeAddr _
      (fun n i => (scratch i,⟨n,0,info.bigEndian,info.argsCnt,info.valueCmds,[]⟩)) 0 (by decide) (appends_ulong _)
      (reads_uint64 info.codeAddr) fun _ => rfl
  have codeSize : Follows S _ (readMember (readLocationAttrs e)) _ _ :=
    @follows_number σ ι S (BitVec 64) _ (info.codeSize ≠ 0) _ "CodeSize" _ _ _ info.codeSize _
      (fun n i => (scratch i,⟨addr,n,info.bigEndian,info.argsCnt,info.valueCmds,[]⟩)) 0 (by decide) (appends_ulong _)
      (reads_uint64 info.codeSize) fun _ => rfl
  rw [given_nonzero] at argsCnt codeSize
  have others := follows_bind (follows_next (by decide : IsName "ValueCmds") valueCmds) (follows_bind argsCnt
    (follows_bind codeAddr (follows_bind codeSize (follows_discriminants ok.discr scratch
      ⟨addr,info.codeSize,info.bigEndian,info.argsCnt,info.valueCmds,[]⟩ rfl))))
  intro s items holds
  obtain ⟨next,texts,run,written,_,taken⟩ := first_follows (carried_member (by decide : IsName "BigEndian") bigEndian) others s items holds
  exact ⟨next,texts,run,written,taken⟩

end Location

/-! Frames. -/

section Frame

variable {σ ρ τ ι : Type} {S : OutStream σ} {e : Readers ρ} (m : Memory)

theorem listed_part {c : Prop} [Decidable c] {name : String} (isName : IsName name)
    {callBack : List UInt8 → τ → Input → Code (τ × Input)} {value : σ → Code σ} {st final : ι → τ} {P : Input → Prop}
    (carried : c → Carried S P value (fun i => callBack (literal name) (st i)) final) (same : ¬c → final = st) :
    Listed S (writePart S c name value) (readMember callBack) st final :=
  listed_if (fun holds => listed_item (carried_member isName (carried holds))) same

theorem carried_parts {write : σ × Nat → Code (σ × Nat)} {callBack : List UInt8 → τ → Input → Code (τ × Input)} {st final : ι → τ}
    (started : Started S write (readMember callBack) st final) :
    Carried S Begins (writeParts S write) (fun i => jsonReadStruct callBack (st i)) fun i => (true,final i) := by
  apply carried_bracketed (.inl ⟨rfl,rfl⟩)
  intro s items holds
  obtain ⟨next,cnt,texts,run,_,rest⟩ := started s items holds
  exact ⟨next,texts,by simp only [run,Code.ok_bind,Code.pure_eq],rest⟩

/-- What is read of an inlined subroutine. -/
def InlinedSubroutine.received (info : InlinedSubroutine Pointer) : InlinedSubroutine (List UInt8) where
  area := CodeAreas.received m none info.area
  funcId := receivedString m info.funcId True

def addSubroutine (st : Scratch ρ) (info : InlinedSubroutine Pointer) : Scratch ρ :=
  { st with traceSubs := st.traceSubs ++ [info.received m] }

theorem carried_subroutine (info : InlinedSubroutine Pointer) (st : ι → Scratch ρ) :
    Carried S Begins (writeInlinedSubroutineInfo S m info) (fun i => readInlinedSubroutine (st i)) fun i => addSubroutine m (st i) info := by
  have id : Listed S (writePart S (info.funcId ≠ none) "ID" (writePointer S m info.funcId)) (readMember readInlinedSubroutineProps)
      (fun _ : ι => ⟨.zero,none⟩) fun _ => ⟨.zero,receivedString m info.funcId True⟩ := by
    apply listed_part (by decide)
    · intro given
      exact carried_map (P := Any) (fun _ str => (⟨CodeArea.zero,str⟩ : InlinedSubroutine (List UInt8)))
        (carried_text (appends_pointer m given) trivial fun _ => reads_pointer m ⟨given,trivial⟩)
    · intro null
      rw [Decidable.not_not.mp null]
      rfl
  have area : Listed S (writePart S True "Area" (writeCodeArea S m info.area none)) (readMember readInlinedSubroutineProps)
      (fun _ : ι => ⟨.zero,receivedString m info.funcId True⟩) fun _ => info.received m := by
    apply listed_part (by decide)
    · intro _
      exact carried_map (P := Any) (fun _ area => (⟨area,receivedString m info.funcId True⟩ : InlinedSubroutine (List UInt8)))
        (carried_text (appends_area m none info.area) trivial fun _ => reads_area m none info.area)
    · exact fun never => absurd trivial never
  have struct := carried_parts (started_bind (listed_started id) area)
  exact carried_map (fun i p => { st i with traceSubs := (st i).traceSubs ++ [p.2] }) struct

/-- A rule that the code can write, and that the proxy finds room for. -/
def Ruled (room : Nat) (cmds : List (LocationExpressionCommand ρ)) : Prop := Sound cmds ∧ ruleSize cmds.length ≤ room

def addRule (st : Scratch ρ) (rule : RegisterLocation ρ) : Scratch ρ :=
  { withCommands st (some rule.cmds) with traceRegs := st.traceRegs ++ [rule] }

theorem carried_rule (back : e.registers.RoundTrip) {rule : RegisterLocation ρ} (ok : Ruled e.room rule.cmds) (st : ι → Scratch ρ) :
    Carried S Begins (writeRule S e.registers rule) (fun i => readMember (readStackTraceRegister e) (st i)) fun i => addRule (st i) rule := by
  have sound : ∀ list ∈ some rule.cmds, Sound list ∧ ruleSize list.length ≤ e.room := by
    rintro list ⟨⟩
    exact ok
  have value : Carried S Any (writeCommands S e.registers (some rule.cmds))
      (fun i => readStackTraceRegister e (e.registers.register2id rule.reg) (st i)) fun i => addRule (st i) rule := by
    apply carried_through _ _ (carried_commands back ruleSize sound st)
    intro i inp
    simp only [back rule.reg]
    rfl
  exact carried_named (e.registers.short rule.reg) (e.registers.nulFree rule.reg) value

theorem foldl_addRule (st : Scratch ρ) (rules : List (RegisterLocation ρ)) :
    (rules.foldl addRule st).traceRegs = st.traceRegs ++ rules ∧
      (rules.foldl addRule st).id2registerError = st.id2registerError := by
  induction rules generalizing st with
  | nil => simp
  | cons rule rules ih =>
    obtain ⟨regs,error⟩ := ih (addRule st rule)
    rw [List.foldl_cons,regs,error]
    exact ⟨by simp [addRule],rfl⟩

theorem foldl_addSubroutine (st : Scratch ρ) (subs : List (InlinedSubroutine Pointer)) :
    subs.foldl (addSubroutine m) st = { st with traceSubs := st.traceSubs ++ subs.map (.received m) } := by
  induction subs generalizing st with
  | nil => simp
  | cons info subs ih => simp [ih,addSubroutine]

/-- A frame that the code can write, and whose arrays the proxy finds room for. -/
structure StackTracingInfo.Sendable {τ : Type} (room : Nat) (info : StackTracingInfo ρ τ) : Prop where
  fp : ∀ cmds ∈ info.fp, Ruled room cmds
  regs : ∀ rules ∈ info.regs, rules.length * 8 ≤ room ∧ ∀ rule ∈ rules, Ruled room rule.cmds
  subs : ∀ subs ∈ info.subs, subs.length * 8 ≤ room

/-- What is read of a frame. -/
def StackTracingInfo.received (info : StackTracingInfo ρ Pointer) : StackTracingInfo ρ (List UInt8) :=
  { info with subs := info.subs.map (·.map (.received m)) }

/-- After the rules of registers. -/
def withRules (st : Scratch ρ) (rules : Option (List (RegisterLocation ρ))) : Scratch ρ :=
  (rules.getD []).foldl addRule { st with traceRegs := [] }

variable {info : StackTracingInfo ρ Pointer}

theorem carried_fp (back : e.registers.RoundTrip) (ok : info.Sendable e.room) (st : ι → Scratch ρ)
    (sti : StackTracingInfo ρ (List UInt8)) (none_ : sti.fp = none) :
    Carried S Any (writeCommands S e.registers info.fp) (fun i => readStackFrameFp e (st i,sti))
      fun i => (withCommands (st i) info.fp,{ sti with fp := info.fp }) := by
  apply carried_through _ _ (carried_commands back ruleSize ok.fp st)
  intro i inp
  simp only [none_,Option.or_none,Code.pure_eq]

theorem carried_rules (back : e.registers.RoundTrip) (ok : info.Sendable e.room) (st : ι → Scratch ρ)
    (sti : StackTracingInfo ρ (List UInt8)) (none_ : sti.regs = none) :
    Carried S Any (writeRules S e.registers info.regs) (fun i => readStackFrameRegs e (st i,sti))
      fun i => (withRules (st i) info.regs,{ sti with regs := info.regs }) := by
  obtain ⟨addr,size,fp,regs,subs⟩ := sti
  cases none_
  apply carried_orNull fun i regs => ((withRules (st i) regs,⟨addr,size,fp,regs,subs⟩) : Reading ρ)
  · exact fun _ _ _ _ => rfl
  · intro rules given
    obtain ⟨fits,each⟩ := ok.regs rules given
    have array := carried_array (S := S) (.inl ⟨rfl,rfl⟩) (fun rule member => carried_rule back (each rule member))
      fun i => { st i with traceRegs := [] }
    apply carried_through _ _ (carried_any array)
    intro i inp
    obtain ⟨all,_⟩ := foldl_addRule { st i with traceRegs := [] } rules
    rw [List.nil_append] at all
    simp only [all,if_true,locAlloc,if_pos fits,Code.ok_bind,Code.pure_eq,withRules,Option.getD_some]

theorem carried_subs {subs : List (InlinedSubroutine Pointer)} (ok : info.Sendable e.room) (given : info.subs = some subs)
    (st : ι → Scratch ρ) (sti : StackTracingInfo ρ (List UInt8)) :
    Carried S Any (writeSubs S m info.subs) (fun i => readStackFrameInlined e (st i,sti))
      fun i => ({ st i with traceSubs := subs.map (.received m) },{ sti with subs := some (subs.map (.received m)) }) := by
  have array := carried_array (S := S) (.inr ⟨rfl,rfl⟩) (fun sub (_ : sub ∈ subs) => @carried_subroutine σ ρ ι S m sub)
    fun i => { st i with traceSubs := [] }
  simp only [foldl_addSubroutine,List.nil_append] at array
  have fits : (subs.map (InlinedSubroutine.received m)).length * 8 ≤ e.room := by
    rw [List.length_map]
    exact ok.subs subs given
  rw [given]
  apply carried_through _ _ (carried_any array)
  intro i inp
  simp only [if_true,locAlloc,if_pos fits,Code.ok_bind,Code.pure_eq]

/-- The code range of a frame, if it has one. -/
def StackTracingInfo.range {τ : Type} (info : StackTracingInfo ρ τ) : StackTracingInfo ρ (List UInt8) :=
  ⟨given (info.size ≠ 0) info.addr 0,info.size,none,none,none⟩

theorem started_range (st : ι → Scratch ρ) :
    Started S (writeRange S info) (readMember (readStackFrameProps e)) (fun i => (st i,.zero)) fun i => (st i,info.range) := by
  by_cases some_ : info.size ≠ 0
  · have addr : Carried S Any (jsonWriteUint64 S · info.addr.toNat) (fun i => readStackFrameProps e (literal "CodeAddr") (st i,.zero))
        fun i => (st i,⟨info.addr,0,none,none,none⟩) :=
      carried_map (fun i n => ((st i,⟨n,0,none,none,none⟩) : Reading ρ)) (carried_uint64 info.addr)
    have size : Carried S Any (jsonWriteUint64 S · info.size.toNat)
        (fun i => readStackFrameProps e (literal "CodeSize") (st i,⟨info.addr,0,none,none,none⟩))
        fun i => (st i,⟨info.addr,info.size,none,none,none⟩) :=
      carried_map (fun i n => ((st i,⟨info.addr,n,none,none,none⟩) : Reading ρ)) (carried_uint64 info.size)
    intro s items holds
    obtain ⟨next,texts,run,written,more,taken⟩ := first_follows (carried_member (by decide : IsName "CodeAddr") addr)
      (follows_next (by decide : IsName "CodeSize") size) s items holds
    refine ⟨next,1,texts,?_,?_,written,?_⟩
    · rw [writeRange,if_pos some_]
      simpa only [bind_assoc,Code.ok_bind,Code.pure_eq] using congrArg (· >>= fun s => pure (s,1)) run
    · simp [List.length_pos_iff,more]
    · simpa only [StackTracingInfo.range,given,if_pos some_] using taken
  · have nothing : writeRange S info = pure := funext fun st => if_neg some_
    have zero : info.range = .zero := by
      rw [StackTracingInfo.range,given,if_neg some_,Decidable.not_not.mp some_]
      rfl
    rw [nothing,zero]
    exact started_nothing _

/-- The static variables after the three lists of a frame. -/
def afterFrame (info : StackTracingInfo ρ Pointer) (st : Scratch ρ) : Scratch ρ :=
  let st := given (info.fp ≠ none) (withCommands st info.fp) st
  let st := given (info.regs ≠ none) (withRules st info.regs) st
  { st with traceSubs := ((info.subs.map (·.map (.received m))).getD st.traceSubs) }

theorem carried_frame (back : e.registers.RoundTrip) (ok : info.Sendable e.room) (st : ι → Scratch ρ) :
    Carried S Begins (writeParts S (writeFrameParts S e.registers m info)) (fun i => jsonReadStruct (readStackFrameProps e) (st i,.zero))
      fun i => (true,afterFrame m info (st i),{ info.received m with addr := given (info.size ≠ 0) info.addr 0 }) := by
  have fp (st : ι → Scratch ρ) : Listed S (writePart S (info.fp ≠ none) "FP" (writeCommands S e.registers info.fp))
      (readMember (readStackFrameProps e)) (fun i => (st i,info.range))
      fun i => (given (info.fp ≠ none) (withCommands (st i) info.fp) (st i),{ info.range with fp := info.fp }) := by
    apply listed_part (by decide)
    · intro some_
      simp only [given,if_pos some_]
      exact carried_fp back ok st info.range rfl
    · intro null
      simp only [given,Decidable.not_not.mp null]
      rfl
  have regs (st : ι → Scratch ρ) : Listed S (writePart S (info.regs ≠ none) "Regs" (writeRules S e.registers info.regs))
      (readMember (readStackFrameProps e)) (fun i => (st i,{ info.range with fp := info.fp }))
      fun i => (given (info.regs ≠ none) (withRules (st i) info.regs) (st i),{ info.range with fp := info.fp, regs := info.regs }) := by
    apply listed_part (by decide)
    · intro some_
      simp only [given,if_pos some_]
      exact carried_rules back ok st { info.range with fp := info.fp } rfl
    · intro null
      simp only [given,Decidable.not_not.mp null]
      rfl
  have subs (st : ι → Scratch ρ) : Listed S (writePart S (info.subs ≠ none) "Inlined" (writeSubs S m info.subs))
      (readMember (readStackFrameProps e)) (fun i => (st i,{ info.range with fp := info.fp, regs := info.regs }))
      fun i => ({ st i with traceSubs := ((info.subs.map (·.map (.received m))).getD (st i).traceSubs) },
        { info.received m with addr := given (info.size ≠ 0) info.addr 0 }) := by
    apply listed_part (by decide)
    · intro some_
      obtain ⟨subs,same⟩ := Option.ne_none_iff_exists'.mp some_
      simp only [StackTracingInfo.received,same,Option.map_some,Option.getD_some]
      have array := carried_subs (S := S) m ok same st { info.range with fp := info.fp, regs := info.regs }
      rw [same] at array
      exact array
    · intro null
      simp only [StackTracingInfo.received,Decidable.not_not.mp null,Option.map_none,Option.getD_none]
      rfl
  exact carried_parts (started_bind (started_range st) (listed_bind (fp _) (listed_bind (regs _) (subs _))))

theorem afterFrame_error (st : Scratch ρ) : (afterFrame m info st).id2registerError = st.id2registerError := by
  obtain ⟨addr,size,fp,regs,subs⟩ := info
  have rules := foldl_addRule (ρ := ρ)
  cases fp <;> cases regs <;> simp [afterFrame,given,withRules,rules,withCommands]

/-- The four parts of a reply to findFrameInfo but for what ends the last. -/
theorem carried_frame_parts (back : e.registers.RoundTrip) (ok : info.Sendable e.room) (st : ι → Scratch ρ) :
    Carried S Any
      (fun s => do
        let s ← jsonWriteUint64 S s info.addr.toNat
        let s ← S.writeByte s 0
        let s ← jsonWriteUint64 S s info.size.toNat
        let s ← S.writeByte s 0
        let s ← writeCommands S e.registers info.fp s
        let s ← S.writeByte s 0
        writeRules S e.registers info.regs s)
      (fun i inp => do
        let (addr,inp) ← jsonReadUint64 inp
        let inp ← jsonTestChar 0 inp
        let (size,inp) ← jsonReadUint64 inp
        let inp ← jsonTestChar 0 inp
        let (st,inp) ← readStackFrameFp e (st i,⟨addr,size,none,none,none⟩) inp
        let inp ← jsonTestChar 0 inp
        readStackFrameRegs e st inp)
      fun i => (withRules (withCommands (st i) info.fp) info.regs,⟨info.addr,info.size,info.fp,info.regs,none⟩) := by
  have regs := carried_rules (S := S) back ok (fun i => withCommands (st i) info.fp) ⟨info.addr,info.size,info.fp,none,none⟩ rfl
  have fp := carried_fp (S := S) back ok st ⟨info.addr,info.size,none,none,none⟩ rfl
  apply carried_bind any_append (carried_uint64 info.addr)
  apply carried_eoa
  apply carried_bind any_append (carried_uint64 info.size)
  apply carried_eoa
  apply carried_bind any_append fp
  exact carried_eoa regs

end Frame

/-! Replies. -/

section Replies

variable {σ ρ α ι : Type} {S : OutStream σ} {e : Readers ρ}

/-- Whatever the static variables held and whatever follows the text, the reader finds no error in it and a `good` value. -/
def Arrives (S : OutStream σ) (write : σ → Code σ)
    (read : (Input → Code (Nat × Input)) → Scratch ρ → Input → Code (Received ρ α × Input)) (good : α → Prop) : Prop :=
  ∀ s items, S.Holds s items → ∃ next text, write s = .ok next ∧ S.Holds next (items ++ text) ∧
    ∀ readErrorObject scratch rest, ∃ value after,
      read readErrorObject scratch (text ++ rest) = .ok (⟨0,value,after⟩,rest) ∧ good value

/-- The text between a null error and the end of the reply. -/
theorem reply_body {P : Input → Prop} {write : σ → Code σ} {read : ι → Input → Code (α × Input)} {value : ι → α}
    (carried : Carried S P write read value) (s : σ) (items : List Item) (holds : S.Holds s items) :
    ∃ next body, (do
      let s ← S.writeByte s 0
      let s ← write s
      let s ← S.writeByte s 0
      S.write s .eom) = .ok next ∧ S.Holds next (items ++ .byte 0 :: (body ++ [.byte 0,.eom])) ∧ ∀ i, Reads (read i) body (value i) := by
  obtain ⟨s₁,run₁,holds₁⟩ := S.writeByte_holds holds 0
  obtain ⟨s₂,body,run₂,holds₂,_,reads⟩ := carried s₁ _ holds₁
  obtain ⟨s₃,run₃,holds₃⟩ := S.writeByte_holds holds₂ 0
  obtain ⟨s₄,run₄,holds₄⟩ := S.write_holds holds₃ .eom
  refine ⟨s₄,body,?_,by simpa using holds₄,reads⟩
  simp only [run₁,Code.ok_bind,run₂,run₃,run₄]

theorem ends (rest : Input) : jsonTestChar 0 (.byte 0 :: .eom :: rest) = .ok (.eom :: rest) := rfl

theorem ends_message (rest : Input) : jsonTestEom (.eom :: rest) = .ok rest := rfl

theorem location_arrives (back : e.registers.RoundTrip) {info : LocationInfo ρ} (ok : info.Sendable e.room) :
    Arrives S (writeLocationInfo S e.registers info) (readLocationReply e) (· = info.settled) := by
  intro s items holds
  obtain ⟨next,body,run,written,reads⟩ := reply_body
    (carried_location back ok fun scratch : Scratch ρ => { scratch with id2registerError := 0 }) s items holds
  refine ⟨next,_,run,written,?_⟩
  intro readErrorObject scratch rest
  refine ⟨info.settled,afterLocation info { scratch with id2registerError := 0 },?_,rfl⟩
  have read := reads scratch 0 (.eom :: rest) (by decide)
  have split : .byte 0 :: (body ++ [.byte 0,.eom]) ++ rest = .byte 0 :: (body ++ .byte 0 :: .eom :: rest) := by simp
  rw [readLocationReply,split,readErrno_zero]
  simp only [Code.ok_bind,read,ends,finish,ends_message,Code.pure_eq,if_true]
  rfl

/-- An address that a query can have when this frame is its answer. -/
def StackTracingInfo.Covers {τ : Type} (info : StackTracingInfo ρ τ) (ip : BitVec 64) : Prop :=
  info.size = 0 ∨ (info.addr ≤ ip ∧ (info.addr + info.size = 0 ∨ info.addr + info.size > ip))

/-- A frame without a code range is that of one address. -/
def StackTracingInfo.settled {τ : Type} (info : StackTracingInfo ρ τ) (ip : BitVec 64) : StackTracingInfo ρ τ :=
  if info.size = 0 then { info with addr := ip, size := 1 } else info

theorem settled_covers {τ : Type} {info : StackTracingInfo ρ τ} {ip : BitVec 64} (covers : info.Covers ip) :
    (info.settled ip).addr ≤ ip ∧ ((info.settled ip).addr + (info.settled ip).size = 0 ∨
      (info.settled ip).addr + (info.settled ip).size > ip) := by
  by_cases empty : info.size = 0
  · rw [StackTracingInfo.settled,if_pos empty]
    dsimp only
    bv_omega
  · rw [StackTracingInfo.settled,if_neg empty]
    exact covers.resolve_left empty

theorem settleFrame_covers {τ : Type} {info : StackTracingInfo ρ τ} {ip : BitVec 64} (covers : info.Covers ip) :
    settleFrame ip 0 info = .ok (info.settled ip) := by
  obtain ⟨low,high⟩ := settled_covers covers
  have same : (if (0 : Nat) ≠ 0 ∨ info.size = 0 then { info with addr := ip, size := 1 } else info) = info.settled ip := by
    simp [StackTracingInfo.settled]
  rw [settleFrame,same,require_true low,require_true high]
  rfl

theorem frame_props_arrive (m : Memory) (back : e.registers.RoundTrip) {info : StackTracingInfo ρ Pointer} (ok : info.Sendable e.room)
    {ip : BitVec 64} (covers : info.Covers ip) :
    Arrives S (writeFrameProps S e.registers m info) (fun error => validateFrame e error true ip)
      (· = (info.received m).settled ip) := by
  intro s items holds
  obtain ⟨next,body,run,written,reads⟩ := reply_body
    (carried_frame m back ok fun scratch : Scratch ρ => { scratch with id2registerError := 0 }) s items holds
  refine ⟨next,_,run,written,?_⟩
  intro readErrorObject scratch rest
  refine ⟨(info.received m).settled ip,afterFrame m info { scratch with id2registerError := 0 },?_,rfl⟩
  have read := reads scratch 0 (.eom :: rest) (by decide)
  have split : .byte 0 :: (body ++ [.byte 0,.eom]) ++ rest = .byte 0 :: (body ++ .byte 0 :: .eom :: rest) := by simp
  have covers' : StackTracingInfo.Covers { info.received m with addr := given (info.size ≠ 0) info.addr 0 } ip := by
    rcases covers with empty | range
    · exact .inl empty
    · by_cases empty : info.size = 0
      · exact .inl empty
      · rw [given,if_pos empty]
        exact .inr range
  have same : StackTracingInfo.settled { info.received m with addr := given (info.size ≠ 0) info.addr 0 } ip =
      (info.received m).settled ip := by
    rw [StackTracingInfo.settled,StackTracingInfo.settled]
    by_cases empty : info.size = 0
    · exact (if_pos empty).trans (if_pos empty).symm
    · rw [given,if_pos empty]
      exact (if_neg empty).trans (if_neg empty).symm
  dsimp only
  rw [validateFrame,readFrameReply,split,readErrno_zero]
  simp only [Code.ok_bind,read,ends,finish,ends_message,Code.pure_eq,if_true,afterFrame_error,settleFrame_covers covers',same]

theorem frame_info_arrives (back : e.registers.RoundTrip) {info : StackTracingInfo ρ Pointer} (ok : info.Sendable e.room)
    {ip : BitVec 64} (covers : info.Covers ip) :
    Arrives S (writeFrameInfo S e.registers info) (fun error => validateFrame e error false ip)
      (· = StackTracingInfo.settled { info with subs := none } ip) := by
  intro s items holds
  obtain ⟨next,body,run,written,reads⟩ := reply_body
    (carried_frame_parts back ok fun scratch : Scratch ρ => { scratch with id2registerError := 0 }) s items holds
  refine ⟨next,_,?_,written,?_⟩
  · simpa only [writeFrameInfo,bind_assoc] using run
  intro readErrorObject scratch rest
  let after := withRules (withCommands { scratch with id2registerError := 0 } info.fp) info.regs
  refine ⟨StackTracingInfo.settled { info with subs := none } ip,after,?_,rfl⟩
  have error : after.id2registerError = 0 := (foldl_addRule _ _).2
  have read := reads scratch 0 (.eom :: rest) (by decide)
  have split : .byte 0 :: (body ++ [.byte 0,.eom]) ++ rest = .byte 0 :: (body ++ .byte 0 :: .eom :: rest) := by simp
  have parts : readFrameParts e ({ scratch with id2registerError := 0 },.zero) (body ++ .byte 0 :: .eom :: rest) =
      .ok ((after,⟨info.addr,info.size,info.fp,info.regs,none⟩),.eom :: rest) := by
    have ended := congrArg (· >>= fun p => jsonTestChar 0 p.2 >>= fun inp => pure (p.1,inp)) read
    simp only [bind_assoc,Code.ok_bind,ends] at ended
    exact ended
  have covers' : StackTracingInfo.Covers (τ := List UInt8) ⟨info.addr,info.size,info.fp,info.regs,none⟩ ip := covers
  dsimp only
  rw [validateFrame,readFrameReply,split,readErrno_zero]
  simp only [Code.ok_bind,parts,finish,ends_message,Code.pure_eq,if_true,Bool.false_eq_true,if_false,error,settleFrame_covers covers']

end Replies

/-- The same with strings in place of pointers. -/
def InlinedSubroutine.map {τ τ' : Type} (f : τ → τ') (info : InlinedSubroutine τ) : InlinedSubroutine τ' where
  area := info.area.map f
  funcId := info.funcId.map f

def StackTracingInfo.map {ρ τ τ' : Type} (f : τ → τ') (info : StackTracingInfo ρ τ) : StackTracingInfo ρ τ' :=
  { info with subs := info.subs.map (·.map (.map f)) }

/-- Nothing of the area or the ID is lost. -/
structure InlinedSubroutine.Sendable (m : Memory) (info : InlinedSubroutine Pointer) : Prop where
  area : Carries m none info.area
  funcId : ∀ p ∈ info.funcId, ShortRuns (m.text p)

theorem received_subroutine_iff (m : Memory) (info : InlinedSubroutine Pointer) :
    info.received m = info.map m.string ↔ info.Sendable m := by
  have string := received_string_iff m info.funcId True
  simp only [true_and] at string
  rw [InlinedSubroutine.received,InlinedSubroutine.map,InlinedSubroutine.mk.injEq,received_eq_iff,string]
  constructor
  · rintro ⟨area,funcId⟩
    exact ⟨area,funcId⟩
  · rintro ⟨area,funcId⟩
    exact ⟨area,funcId⟩

theorem received_frame {ρ : Type} (m : Memory) {info : StackTracingInfo ρ Pointer}
    (sendable : ∀ subs ∈ info.subs, ∀ sub ∈ subs, sub.Sendable m) : info.received m = info.map m.string := by
  obtain ⟨addr,size,fp,regs,subs⟩ := info
  cases subs with
  | none => rfl
  | some subs =>
    have each : subs.map (InlinedSubroutine.received m) = subs.map (InlinedSubroutine.map m.string) :=
      List.map_congr_left fun sub member => (received_subroutine_iff m sub).mpr (sendable subs rfl sub member)
    simp [StackTracingInfo.received,StackTracingInfo.map,each]

/-- A context with two registers. -/
def twoRegisters : Registers Bool where
  register2id reg := if reg then literal "R1" else literal "R0"
  id2register id := if id = literal "R1" then .ok true else if id = literal "R0" then .ok false else .error 1
  short reg := by cases reg <;> decide
  nulFree reg := by cases reg <;> decide
  named reg := by cases reg <;> decide

def smallReaders : Readers Bool := ⟨twoRegisters,fun _ => 0x100,0x1000⟩

theorem twoRegisters_roundTrip : smallReaders.registers.RoundTrip := by
  intro reg
  cases reg <;> rfl

def frameOfTwo : StackTracingInfo Bool Pointer where
  addr := 0x1000
  size := 0x10
  fp := some [⟨SFT_CMD_RD_REG,some true⟩]
  regs := some [⟨false,[⟨SFT_CMD_PIECE,(⟨some [1,2],none,3,12⟩ : Piece Bool)⟩]⟩]
  subs := some [⟨firstArea,some 16⟩]

def locationOfTwo : LocationInfo Bool where
  codeAddr := 0x1000
  codeSize := 0x10
  bigEndian := true
  argsCnt := 1
  valueCmds := some [⟨SFT_CMD_ARG,(0 : BitVec 32)⟩,⟨SFT_CMD_LOAD,(⟨4,true⟩ : MemArgs)⟩]
  discrLst := [⟨BitVec.intMin 64,BitVec.intMax 64⟩]

theorem frameOfTwo_sendable : frameOfTwo.Sendable smallReaders.room := by
  have fp : Ruled smallReaders.room [⟨SFT_CMD_RD_REG,some true⟩] :=
    ⟨List.forall_mem_singleton.mpr (Option.some_ne_none true),by decide⟩
  have value : ∀ bytes ∈ some [(1 : UInt8),2], (12 : BitVec 32).toNat + 7 < 2^32 ∧ List.length bytes = ((12 : BitVec 32).toNat + 7) / 8 := by
    rintro bytes ⟨⟩
    decide
  have rule : Ruled smallReaders.room [⟨SFT_CMD_PIECE,(⟨some [1,2],none,3,12⟩ : Piece Bool)⟩] :=
    ⟨List.forall_mem_singleton.mpr value,by decide⟩
  refine ⟨?_,?_,?_⟩
  · rintro cmds ⟨⟩
    exact fp
  · rintro rules ⟨⟩
    exact ⟨by decide,List.forall_mem_singleton.mpr rule⟩
  · rintro subs ⟨⟩
    decide

theorem arrives_mono {σ ρ α : Type} {S : OutStream σ} {write : σ → Code σ}
    {read : (Input → Code (Nat × Input)) → Scratch ρ → Input → Code (Received ρ α × Input)} {good good' : α → Prop}
    (weaker : ∀ value, good value → good' value) (arrives : Arrives S write read good) : Arrives S write read good' := by
  intro s items holds
  obtain ⟨next,text,run,written,reads⟩ := arrives s items holds
  refine ⟨next,text,run,written,?_⟩
  intro readErrorObject scratch rest
  obtain ⟨value,after,read,holds'⟩ := reads readErrorObject scratch rest
  exact ⟨value,after,read,weaker value holds'⟩

/-- A location with an address but no code range. -/
def placeOnly : LocationInfo Bool := { LocationInfo.zero with codeAddr := 0x1000 }

end Tcf.Locations
