import Tcf.SymbolIds

/-! A symbol is found again by its ID, and no other one is. -/
namespace Tcf.SymbolIds

open TokenText

variable {File Ctx : Type} {t : Target File Ctx}

section Words

theorem setWidth_signExtend {v : Nat} (x : BitVec v) (fits : v ≤ 64) : (x.signExtend 64).setWidth v = x := by
  ext i lt
  simp only [BitVec.getElem_setWidth,BitVec.getLsbD_signExtend,lt,if_true]
  simp [Nat.lt_of_lt_of_le lt fits,BitVec.getLsbD_eq_getElem lt]

@[simp] theorem int8_back (c : Int8) : c.toInt64.toUInt64.toUInt8.toInt8 = c := by
  apply Int8.toBitVec_inj.mp
  simpa using setWidth_signExtend _ (by decide)

@[simp] theorem frame_back (f : Int32) : (f + 3).toInt64.toUInt64.toUInt32.toInt32 - 3 = f := by
  have back : (f + 3).toInt64.toUInt64.toUInt32.toInt32 = f + 3 := by
    apply Int32.toBitVec_inj.mp
    simpa using setWidth_signExtend _ (by decide)
  rw [back,Int32.add_sub_cancel]

end Words

variable {text : Text} {sym : SymbolInfo File Ctx}

section Texts

/-- A text that goes on with one of these marks. -/
def Begins (marks : List Char) (text : Text) : Prop := ∃ c rest, text = c :: rest ∧ c ∈ marks

theorem Begins.ends {marks : List Char} (begins : Begins marks text) (plain : ∀ c ∈ marks, digitOf c = none) :
    Ends text := by
  obtain ⟨c,rest,rfl,inside⟩ := begins
  intro d here
  obtain rfl : c = d := by simpa using here
  exact plain c inside

theorem Begins.mono {marks more : List Char} (begins : Begins marks text) (sub : marks ⊆ more) : Begins more text := by
  obtain ⟨c,rest,eq,inside⟩ := begins
  exact ⟨c,rest,eq,sub inside⟩

theorem begins_cons (c : Char) (rest : Text) : Begins [c] (c :: rest) := ⟨c,rest,rfl,by simp⟩

def token (ch : Char) (n : UInt64) : Text := ch :: digits 16 n.toNat []

def frameText (frame : Int32) : Text := if frame ≠ stackTopFrame then token '+' (frame + 3).toInt64.toUInt64 else []

def objectText (ch : Char) (sec : UInt32) (id : UInt64) : Text :=
  if sec ≠ 0 then token ch sec.toUInt64 ++ token '.' id else []

def refText (sym : SymbolInfo File Ctx) : Text :=
  if secOf sym.ref = secOf sym.obj ∧ idOf sym.ref = idOf sym.obj then ['&'] else objectText '*' (secOf sym.ref) (idOf sym.ref)

def tableText (index : UInt32) : Text := if index ≠ 0 then token '-' index.toUInt64 else []

def countsText (t : Target File Ctx) (sym : SymbolInfo File Ctx) : Text :=
  token '.' sym.index.toUInt64 ++ (token '.' sym.dimension.toUInt64 ++ (token '.' sym.cardinal.toUInt64 ++ '.' :: t.ctxId sym.ctx))

def objectsText (t : Target File Ctx) (sym : SymbolInfo File Ctx) : Text :=
  objectText '%' (secOf sym.obj) (idOf sym.obj) ++ (objectText '^' (secOf sym.var) (idOf sym.var) ++ (refText sym ++
    (tableText (tableOf sym) ++ (frameText (topFrame t sym.ctx sym.frame) ++ countsText t sym))))

def fileText (t : Target File Ctx) (sym : SymbolInfo File Ctx) : Text :=
  token '.' (((fileOf sym).map t.dev).getD 0) ++ (token '.' (((fileOf sym).map t.ino).getD 0) ++
    (token '.' (((fileOf sym).map t.mtime).getD 0).toUInt64 ++ objectsText t sym))

/-- The ID before it is cut. -/
def idText (t : Target File Ctx) : Symbol File Ctx → Text
  | .info sym => '@' :: (token 'S' sym.symClass.toInt64.toUInt64 ++ fileText t sym)
  | .pseudo symClass ctx frame index length base => '@' :: (token 'P' symClass.toInt64.toUInt64 ++
      (frameText (topFrame t ctx frame) ++ (token '.' index.toUInt64 ++ (token '.' length ++ '.' :: idText t base))))

theorem tmpAppChar_take (text : Text) (ch : Char) : tmpAppChar (text.take tmpBufSize) ch = (text ++ [ch]).take tmpBufSize :=
  push_take tmpBufSize text ch

theorem tmpAppStr_take (text : Text) (ch : Char) (s : Text) :
    tmpAppStr (text.take tmpBufSize) ch s = (text ++ ch :: s).take tmpBufSize := by
  rw [tmpAppStr,tmpAppChar_take,pushAll_take,List.append_assoc,List.singleton_append]

theorem tmpAppHex_take (text : Text) (ch : Char) (n : UInt64) :
    tmpAppHex (text.take tmpBufSize) ch n = (text ++ token ch n).take tmpBufSize := by
  rw [tmpAppHex,tmpAppChar_take,pushAll_take,List.append_assoc,List.singleton_append]
  rfl

theorem tmpAppObject_take (text : Text) (ch : Char) (sec : UInt32) (id : UInt64) :
    tmpAppObject (text.take tmpBufSize) ch sec id = (text ++ objectText ch sec id).take tmpBufSize := by
  unfold tmpAppObject objectText
  split
  · rw [tmpAppHex_take,tmpAppHex_take,List.append_assoc]
  · rw [List.append_nil]

theorem tmpAppRef_take (text : Text) (sym : SymbolInfo File Ctx) :
    tmpAppRef (text.take tmpBufSize) sym = (text ++ refText sym).take tmpBufSize := by
  unfold tmpAppRef refText
  split
  · exact tmpAppChar_take text '&'
  · exact tmpAppObject_take ..

theorem tmpAppTable_take (text : Text) (index : UInt32) :
    tmpAppTable (text.take tmpBufSize) index = (text ++ tableText index).take tmpBufSize := by
  unfold tmpAppTable tableText
  split
  · exact tmpAppHex_take ..
  · rw [List.append_nil]

/-- What `symbol2id` asserts about a frame. -/
def FrameFits (frame : Int32) : Prop := frame ≠ stackTopFrame → 0 ≤ frame + 3

instance (frame : Int32) : Decidable (FrameFits frame) := inferInstanceAs (Decidable (_ → _))

theorem tmpAppFrame_take (text : Text) {frame : Int32} (fits : FrameFits frame) :
    tmpAppFrame (text.take tmpBufSize) frame = .ok ((text ++ frameText frame).take tmpBufSize) := by
  unfold tmpAppFrame frameText
  by_cases top : frame ≠ stackTopFrame
  · rw [if_pos top,if_pos top,Code.require_bind_true (fits top),tmpAppHex_take]
    rfl
  · rw [if_neg top,if_neg top,List.append_nil]
    rfl

/-- The assertions of `symbol2id` hold. -/
def Asserted (t : Target File Ctx) : Symbol File Ctx → Prop
  | .info sym => (sym.var.map ObjectInfo.file = none ∨ sym.var.map ObjectInfo.file = fileOf sym) ∧ FrameFits (topFrame t sym.ctx sym.frame)
  | .pseudo _ ctx frame _ _ base => ctx = base.ctx ∧ FrameFits (topFrame t ctx frame) ∧ Asserted t base

instance decidableAsserted [DecidableEq File] [DecidableEq Ctx] (t : Target File Ctx) : ∀ s, Decidable (Asserted t s)
  | .info _ => inferInstanceAs (Decidable (_ ∧ _))
  | .pseudo _ _ _ _ _ base =>
    have := decidableAsserted t base
    inferInstanceAs (Decidable (_ ∧ _ ∧ _))

theorem tmpAppChar_start : tmpAppChar [] '@' = (['@'] : Text).take tmpBufSize := rfl

theorem info2id_eq [DecidableEq File] (asserted : Asserted t (.info sym)) :
    info2id t sym = .ok ((idText t (.info sym)).take tmpBufSize) := by
  obtain ⟨oneFile,frame⟩ := asserted
  unfold info2id
  rw [Code.require_bind_true oneFile]
  simp only [tmpAppChar_start,tmpAppHex_take,tmpAppObject_take,tmpAppRef_take,tmpAppTable_take,tmpAppFrame_take _ frame,tmpAppStr_take,Code.ok_bind,Code.pure_eq]
  simp only [idText,fileText,objectsText,countsText,List.append_assoc,List.cons_append,List.nil_append]

theorem take_append_take (head text : Text) :
    (head ++ '.' :: text.take tmpBufSize).take tmpBufSize = (head ++ '.' :: text).take tmpBufSize := by
  rw [List.take_append,List.take_append]
  congr 1
  cases room : tmpBufSize - head.length with
  | zero => rfl
  | succ n =>
    have small : n ≤ tmpBufSize := by omega
    rw [List.take_succ_cons,List.take_succ_cons,List.take_take,Nat.min_eq_left small]

theorem symbol2id_eq [DecidableEq File] [DecidableEq Ctx] {s : Symbol File Ctx} (asserted : Asserted t s) : symbol2id t s = .ok ((idText t s).take tmpBufSize) := by
  induction s with
  | info sym => exact info2id_eq asserted
  | pseudo symClass ctx frame index length base ih =>
    obtain ⟨own,fits,below⟩ := asserted
    rw [symbol2id,Code.require_bind_true own,ih below]
    simp only [tmpAppChar_start,tmpAppHex_take,tmpAppFrame_take _ fits,tmpAppStr_take,Code.ok_bind,Code.pure_eq]
    rw [take_append_take]
    simp only [idText,List.append_assoc,List.cons_append,List.nil_append]

end Texts

section Reading

/-- What can stand behind a number, in the order in which it can come. -/
def marks : List Char := ['%','^','&','*','-','+','.']

theorem marks_plain : ∀ c ∈ marks, digitOf c = none := by simp [marks,digitOf]

variable {k : Nat}

theorem readHex_back {n : UInt64} (begins : Begins (marks.drop k) text) :
    readHex (digits 16 n.toNat [] ++ text) = (n,text) := by
  have ends : Ends text := begins.ends fun c inside => marks_plain c (List.mem_of_mem_drop inside)
  have word : n.toNat < 2^64 := n.toNat_lt
  have back : readDigits (2^64) 0 (digits 16 n.toNat [] ++ text) = (n.toNat,text) := readDigits_back word word ends
  simp only [readHex,back,UInt64.ofNat_toNat]

theorem skipChar_same (ch : Char) (text : Text) : skipChar ch (ch :: text) = (true,text) := by simp [skipChar]

theorem skipChar_other {ch : Char} (begins : Begins (marks.drop k) text) (other : ch ∉ marks.drop k) :
    skipChar ch text = (false,text) := by
  obtain ⟨c,rest,rfl,inside⟩ := begins
  have ne : c ≠ ch := fun eq => other (eq ▸ inside)
  simp [skipChar,ne]

@[simp] theorem skipDot_dot (text : Text) : skipDot ('.' :: text) = text := by simp [skipDot,skipChar_same]

theorem begins_dot (text : Text) : Begins (marks.drop 6) ('.' :: text) := begins_cons '.' text

theorem readHex_dot {n : UInt64} (begins : Begins (marks.drop k) text) :
    readHex (skipDot (token '.' n ++ text)) = (n,text) := by
  rw [token,List.cons_append,skipDot_dot,readHex_back begins]

variable {rest : Text}

theorem begins_text (rests : Begins (marks.drop (k + 1)) rest)
    (starts : text = [] ∨ ∃ c more, text = c :: more ∧ c ∈ marks.drop k) : Begins (marks.drop k) (text ++ rest) := by
  obtain rfl | ⟨c,more,rfl,inside⟩ := starts
  · exact rests.mono (List.drop_subset_drop_left marks (Nat.le_succ k))
  · exact ⟨c,more ++ rest,rfl,inside⟩

theorem begins_object {ch : Char} (rests : Begins (marks.drop (k + 1)) rest) (here : ch ∈ marks.drop k)
    (sec : UInt32) (id : UInt64) : Begins (marks.drop k) (objectText ch sec id ++ rest) := by
  refine begins_text rests ?_
  unfold objectText
  split
  · exact .inr ⟨ch,_,rfl,here⟩
  · exact .inl rfl

theorem begins_table (rests : Begins (marks.drop 5) rest) (index : UInt32) :
    Begins (marks.drop 4) (tableText index ++ rest) := by
  refine begins_text rests ?_
  unfold tableText
  split
  · exact .inr ⟨'-',_,rfl,by decide⟩
  · exact .inl rfl

theorem begins_frame (rests : Begins (marks.drop 6) rest) (frame : Int32) :
    Begins (marks.drop 5) (frameText frame ++ rest) := by
  refine begins_text rests ?_
  unfold frameText
  split
  · exact .inr ⟨'+',_,rfl,by decide⟩
  · exact .inl rfl

theorem readObject_text {ch : Char} (rests : Begins (marks.drop k) rest) (other : ch ∉ marks.drop k)
    {o : Option (ObjectInfo File)} (kept : ∀ x ∈ o, x.sectionIndex ≠ 0) :
    readObject ch (objectText ch (secOf o) (idOf o) ++ rest) = (secOf o,idOf o,rest) := by
  cases o with
  | none => simp [objectText,secOf,idOf,readObject,skipChar_other rests other]
  | some x =>
    have some : x.sectionIndex ≠ 0 := kept x rfl
    have dot : Begins (marks.drop 6) (token '.' x.mID ++ rest) := begins_dot _
    simp only [objectText,secOf,idOf,ne_eq,some,not_false_eq_true,if_true,List.append_assoc]
    rw [token,List.cons_append,readObject,skipChar_same]
    simp only [readHex_back dot,readHex_dot rests]
    simp

theorem readRef_text (rests : Begins (marks.drop 4) rest)
    (kept : ∀ x ∈ sym.ref, x.sectionIndex ≠ 0) :
    readRef (secOf sym.obj) (idOf sym.obj) (refText sym ++ rest) = (secOf sym.ref,idOf sym.ref,rest) := by
  unfold refText readRef
  by_cases same : secOf sym.ref = secOf sym.obj ∧ idOf sym.ref = idOf sym.obj
  · rw [if_pos same,List.singleton_append,skipChar_same]
    simp [same.1,same.2]
  · have begins : Begins (marks.drop 3) (objectText '*' (secOf sym.ref) (idOf sym.ref) ++ rest) := begins_object rests (by decide) ..
    rw [if_neg same,skipChar_other begins (by decide)]
    exact readObject_text rests (by decide) kept

theorem readTable_text (rests : Begins (marks.drop 5) rest) (index : UInt32) :
    readTable (tableText index ++ rest) = (index,rest) := by
  unfold tableText readTable
  by_cases some : index ≠ 0
  · rw [if_pos some,token,List.cons_append,skipChar_same]
    simp only [readHex_back rests]
    simp
  · have zero : index = 0 := Decidable.not_not.mp some
    rw [if_neg some,List.nil_append,skipChar_other rests (by decide),zero]

/-- The frame that comes back. -/
def resolvedFrame (t : Target File Ctx) (ctx : Ctx) (frame : Int32) : Int32 :=
  if topFrame t ctx frame = stackTopFrame then stackNoFrame else topFrame t ctx frame

theorem readFrame_text (rests : Begins (marks.drop 6) rest) (ctx : Ctx) (frame : Int32) :
    readFrame (frameText (topFrame t ctx frame) ++ rest) = (resolvedFrame t ctx frame,rest) := by
  unfold frameText readFrame resolvedFrame
  by_cases top : topFrame t ctx frame = stackTopFrame
  · rw [if_neg (not_not_intro top),if_pos top,List.nil_append,skipChar_other rests (by decide)]
  · rw [if_pos top,if_neg top,token,List.cons_append,skipChar_same]
    simp only [readHex_back rests]
    rw [frame_back]

end Reading

section RoundTrip

/-- A file that is still there, and has these objects and sections. -/
structure InfoKnown (t : Target File Ctx) (sym : SymbolInfo File Ctx) : Prop where
  context : t.id2ctx (t.ctxId sym.ctx) = some sym.ctx
  opens : ∀ file ∈ fileOf sym, t.elfOpenInode sym.ctx (t.dev file) (t.ino file) (t.mtime file) = some file
  dated : ∀ file ∈ fileOf sym, ¬(t.dev file = 0 ∧ t.ino file = 0 ∧ t.mtime file = 0)
  inFile : ∀ o, sym.obj = some o ∨ sym.var = some o ∨ sym.ref = some o → fileOf sym = some o.file
  inSection : ∀ o, sym.obj = some o ∨ sym.var = some o ∨ sym.ref = some o →
    o.sectionIndex ≠ 0 ∧ o.sectionIndex < t.sectionCnt o.file
  finds : ∀ o, sym.obj = some o ∨ sym.var = some o ∨ sym.ref = some o → t.findObject o.file o.sectionIndex o.mID = some o
  tables : ∀ e ∈ sym.tbl, e.index ≠ 0 ∧ e.index < t.sectionCnt e.file

def Known (t : Target File Ctx) : Symbol File Ctx → Prop
  | .info sym => InfoKnown t sym
  | .pseudo _ _ _ _ _ base => Known t base

/-- A symbol with the frame that its ID says. -/
def resolve (t : Target File Ctx) : Symbol File Ctx → Symbol File Ctx
  | .info sym => .info { sym with frame := resolvedFrame t sym.ctx sym.frame }
  | .pseudo symClass ctx frame index length base =>
    .pseudo symClass ctx (resolvedFrame t ctx frame) index length (resolve t base)

theorem resolve_ctx (s : Symbol File Ctx) : (resolve t s).ctx = s.ctx := by cases s <;> rfl

theorem openObject_known {file : File} {o : Option (ObjectInfo File)} (inFile : ∀ x ∈ o, x.file = file)
    (inSection : ∀ x ∈ o, x.sectionIndex ≠ 0 ∧ x.sectionIndex < t.sectionCnt x.file)
    (finds : ∀ x ∈ o, t.findObject x.file x.sectionIndex x.mID = some x) :
    openObject t file (secOf o) (idOf o) = some o := by
  cases o with
  | none => rfl
  | some x =>
    obtain ⟨here,below⟩ := inSection x rfl
    have found := finds x rfl
    rw [inFile x rfl] at below found
    have inside : ¬t.sectionCnt file ≤ x.sectionIndex := UInt32.not_le.mpr below
    simp [openObject,secOf,idOf,here,inside,found]

theorem openTable_known {file : File} {o : Option (ElfSection File)} (inFile : ∀ e ∈ o, e.file = file)
    (inside : ∀ e ∈ o, e.index ≠ 0 ∧ e.index < t.sectionCnt e.file) :
    openTable t file ((o.map ElfSection.index).getD 0) = some o := by
  cases o with
  | none => rfl
  | some e =>
    obtain ⟨here,below⟩ := inside e rfl
    obtain rfl := inFile e rfl
    have bounded : ¬t.sectionCnt e.file ≤ e.index := UInt32.not_le.mpr below
    simp [openTable,here,bounded]

/-- Without a file there is nothing to find in it. -/
theorem InfoKnown.bare (known : InfoKnown t sym) (noFile : fileOf sym = none) :
    sym.obj = none ∧ sym.var = none ∧ sym.ref = none ∧ sym.tbl = none := by
  have absent : ∀ o, ¬(sym.obj = some o ∨ sym.var = some o ∨ sym.ref = some o) := fun o here => by
    simpa [noFile] using known.inFile o here
  refine ⟨?_,?_,?_,?_⟩
  · exact Option.eq_none_iff_forall_ne_some.mpr fun o here => absent o (.inl here)
  · exact Option.eq_none_iff_forall_ne_some.mpr fun o here => absent o (.inr (.inl here))
  · exact Option.eq_none_iff_forall_ne_some.mpr fun o here => absent o (.inr (.inr here))
  · cases table : sym.tbl with
    | none => rfl
    | some e => simp [fileOf,table] at noFile

theorem id2info_back (known : InfoKnown t sym) :
    id2info t (digits 16 sym.symClass.toInt64.toUInt64.toNat [] ++ fileText t sym) =
      some { sym with frame := resolvedFrame t sym.ctx sym.frame } := by
  have counts : Begins (marks.drop 6) (countsText t sym) := begins_dot _
  have frames := begins_frame counts (topFrame t sym.ctx sym.frame)
  have tables := begins_table frames (tableOf sym)
  have refs : Begins (marks.drop 2) (refText sym ++ (tableText (tableOf sym) ++
      (frameText (topFrame t sym.ctx sym.frame) ++ countsText t sym))) := by
    refine begins_text (tables.mono (by decide)) ?_
    unfold refText objectText
    split
    · exact .inr ⟨'&',[],rfl,by decide⟩
    · split
      · exact .inr ⟨'*',_,rfl,by decide⟩
      · exact .inl rfl
  have vars : Begins (marks.drop 1) (objectText '^' (secOf sym.var) (idOf sym.var) ++ _) := begins_object refs (by decide) ..
  have objs : Begins (marks.drop 0) (objectsText t sym) := begins_object vars (by decide) (secOf sym.obj) (idOf sym.obj)
  have objSome : ∀ o ∈ sym.obj, o.sectionIndex ≠ 0 := fun o here => (known.inSection o (.inl here)).1
  have varSome : ∀ o ∈ sym.var, o.sectionIndex ≠ 0 := fun o here => (known.inSection o (.inr (.inl here))).1
  have refSome : ∀ o ∈ sym.ref, o.sectionIndex ≠ 0 := fun o here => (known.inSection o (.inr (.inr here))).1
  have symClass : ∀ n : UInt64, readHex (digits 16 n.toNat [] ++ fileText t sym) = (n,fileText t sym) :=
    fun n => readHex_back (k := 6) (begins_dot _)
  have dots : ∀ (n m : UInt64) (text : Text), readHex (skipDot (token '.' n ++ (token '.' m ++ text))) = (n,token '.' m ++ text) :=
    fun n m text => readHex_dot (k := 6) (begins_dot _)
  have mtime : ∀ n : UInt64, readHex (skipDot (token '.' n ++ objectsText t sym)) = (n,objectsText t sym) :=
    fun n => readHex_dot objs
  have last : ∀ (n : UInt64) (text : Text), readHex (skipDot (token '.' n ++ '.' :: text)) = (n,'.' :: text) :=
    fun n text => readHex_dot (k := 6) (begins_dot _)
  have obj : readObject '%' (objectText '%' _ _ ++ _) = _ := readObject_text vars (by decide) objSome
  have var : readObject '^' (objectText '^' _ _ ++ _) = _ := readObject_text refs (by decide) varSome
  unfold id2info
  simp only [symClass]
  simp only [fileText,dots,mtime]
  simp only [objectsText,obj,var,readRef_text tables refSome,readTable_text frames,readFrame_text counts]
  simp only [countsText,dots,last,skipDot_dot,known.context]
  simp only [int8_back,UInt32.toUInt32_toUInt64,Int64.toInt64_toUInt64]
  cases here : fileOf sym with
  | none =>
    obtain ⟨noObj,noVar,noRef,noTbl⟩ := known.bare here
    simp [noObj,noVar,noRef,noTbl]
  | some file =>
    have own : ∀ o, sym.obj = some o ∨ sym.var = some o ∨ sym.ref = some o → o.file = file := fun o belongs => by
      simpa [here,eq_comm] using known.inFile o belongs
    have tblOwn : ∀ e ∈ sym.tbl, e.file = file := fun e belongs => by
      have table : sym.tbl = some e := belongs
      simpa [fileOf,table] using here
    have obj : openObject t file (secOf sym.obj) (idOf sym.obj) = some sym.obj :=
      openObject_known (fun o belongs => own o (.inl belongs)) (fun o belongs => known.inSection o (.inl belongs)) fun o belongs => known.finds o (.inl belongs)
    have var : openObject t file (secOf sym.var) (idOf sym.var) = some sym.var :=
      openObject_known (fun o belongs => own o (.inr (.inl belongs))) (fun o belongs => known.inSection o (.inr (.inl belongs)))
        fun o belongs => known.finds o (.inr (.inl belongs))
    have ref : openObject t file (secOf sym.ref) (idOf sym.ref) = some sym.ref :=
      openObject_known (fun o belongs => own o (.inr (.inr belongs))) (fun o belongs => known.inSection o (.inr (.inr belongs)))
        fun o belongs => known.finds o (.inr (.inr belongs))
    have tbl : openTable t file (tableOf sym) = some sym.tbl := openTable_known tblOwn known.tables
    have dated := known.dated file here
    have opens := known.opens file here
    simp only [Option.map_some,Option.getD_some,dated,if_false,opens,obj,var,ref,tbl,Option.bind_eq_bind,
      Option.bind_some]

/-- Every `@P` takes one step. -/
theorem readSymbol_back {s : Symbol File Ctx} [DecidableEq File] [DecidableEq Ctx] (asserted : Asserted t s) (known : Known t s) {n : Nat}
    (enough : (idText t s).length < n) : readSymbol t n (idText t s) = some (resolve t s) := by
  induction s generalizing n with
  | info sym =>
    cases n with
    | zero => exact absurd enough (Nat.not_lt_zero _)
    | succ n =>
      have start : idText t (.info sym) = '@' :: 'S' :: (digits 16 sym.symClass.toInt64.toUInt64.toNat [] ++ fileText t sym) := rfl
      rw [start,readSymbol,id2info_back known]
      rfl
  | pseudo symClass ctx frame index length base ih =>
    obtain ⟨own,fits,below⟩ := asserted
    cases n with
    | zero => exact absurd enough (Nat.not_lt_zero _)
    | succ n =>
      have start : idText t (.pseudo symClass ctx frame index length base) = '@' :: 'P' :: (digits 16 symClass.toInt64.toUInt64.toNat [] ++
        (frameText (topFrame t ctx frame) ++ (token '.' index.toUInt64 ++ (token '.' length ++ '.' :: idText t base)))) := rfl
      have shorter : (idText t base).length < n := by
        rw [start] at enough
        simp only [List.length_cons,List.length_append] at enough
        omega
      have counts : ∀ text : Text, Begins (marks.drop 6) (token '.' index.toUInt64 ++ text) := fun text => begins_dot _
      have kind : ∀ n : UInt64, ∀ text : Text, readHex (digits 16 n.toNat [] ++ (frameText (topFrame t ctx frame) ++
          (token '.' index.toUInt64 ++ text))) = (n,frameText (topFrame t ctx frame) ++ (token '.' index.toUInt64 ++ text)) :=
        fun n text => readHex_back (begins_frame (counts text) _)
      have first : ∀ (n m : UInt64) (text : Text), readHex (skipDot (token '.' n ++ (token '.' m ++ text))) = (n,token '.' m ++ text) :=
        fun n m text => readHex_dot (k := 6) (begins_dot _)
      have last : ∀ (n : UInt64) (text : Text), readHex (skipDot (token '.' n ++ '.' :: text)) = (n,'.' :: text) :=
        fun n text => readHex_dot (k := 6) (begins_dot _)
      rw [start,readSymbol]
      simp only [kind,readFrame_text (counts _),first,last,skipDot_dot,ih below known shorter]
      simp [resolve,resolve_ctx,own]

theorem id2symbol_back {s : Symbol File Ctx} [DecidableEq File] [DecidableEq Ctx] (asserted : Asserted t s) (known : Known t s) :
    id2symbol t (idText t s) = some (resolve t s) := readSymbol_back asserted known (Nat.lt_succ_self _)

/-- While the file is there, an ID that is not cut gives back the symbol, and is of no other one. -/
theorem symbol_ids_round_trip [DecidableEq File] [DecidableEq Ctx] {s : Symbol File Ctx} (asserted : Asserted t s) (known : Known t s)
    (fits : (idText t s).length ≤ tmpBufSize) :
    ∃ id, symbol2id t s = .ok id ∧ id2symbol t id = some (resolve t s) ∧
      ∀ other : Symbol File Ctx, Asserted t other → Known t other → (idText t other).length ≤ tmpBufSize →
        symbol2id t other = .ok id → resolve t other = resolve t s := by
  refine ⟨idText t s,?_,id2symbol_back asserted known,?_⟩
  · rw [symbol2id_eq asserted,List.take_of_length_le fits]
  · intro other asserted' known' fits' same
    have own : idText t other = idText t s := by
      rw [symbol2id_eq asserted',List.take_of_length_le fits'] at same
      exact Except.ok.inj same
    have back := id2symbol_back asserted' known'
    rw [own,id2symbol_back asserted known] at back
    exact (Option.some.inj back).symm

/-- A file with a section of objects, and a stopped context. -/
def stoppedTarget : Target Unit Unit where
  dev := fun _ => 0x803
  ino := fun _ => 0x1F2
  mtime := fun _ => 0x5E0
  sectionCnt := fun _ => 0x20
  ctxId := fun _ => ['P','1']
  stopped := fun _ => true
  id2ctx := fun id => if id = ['P','1'] then some () else none
  elfOpenInode := fun _ dev ino mtime => if dev = 0x803 ∧ ino = 0x1F2 ∧ mtime = 0x5E0 then some () else none
  findObject := fun file sec id => if sec = 0x1A ∧ id = 0x8C then some ⟨file,sec,id⟩ else none

/-- A local variable. -/
def localVariable (frame : Int32) : Symbol Unit Unit :=
  .info ⟨4,some ⟨(),0x1A,0x8C⟩,none,some ⟨(),0x1A,0x8C⟩,none,(),frame,0,0,0⟩

theorem localKnown (frame : Int32) : InfoKnown stoppedTarget ⟨4,some ⟨(),0x1A,0x8C⟩,none,some ⟨(),0x1A,0x8C⟩,none,(),frame,0,0,0⟩ where
  context := rfl
  opens := fun _ _ => rfl
  dated := fun _ _ ⟨absent,_⟩ => by simp [stoppedTarget] at absent
  inFile := fun _ _ => rfl
  inSection := fun o here => by
    obtain rfl : o = ⟨(),0x1A,0x8C⟩ := by simpa [eq_comm] using here
    decide
  finds := fun o here => by
    obtain rfl : o = ⟨(),0x1A,0x8C⟩ := by simpa [eq_comm] using here
    decide
  tables := by simp

theorem symbol_ids_round_trip_example :
    ∃ id, symbol2id stoppedTarget (.pseudo 5 () (-1) 0 0 (localVariable 1)) = .ok id ∧
      id2symbol stoppedTarget id = some (resolve stoppedTarget (.pseudo 5 () (-1) 0 0 (localVariable 1))) :=
  have ⟨id,written,read,_⟩ := symbol_ids_round_trip (t := stoppedTarget) (s := .pseudo 5 () (-1) 0 0 (localVariable 1))
    (by decide +kernel) (localKnown 1) (by decide +kernel)
  ⟨id,written,read⟩

/-- A variable of the top frame comes back as one of frame 0, and has its ID. -/
theorem top_frame_resolved :
    ∃ id, symbol2id stoppedTarget (localVariable stackTopFrame) = .ok id ∧ symbol2id stoppedTarget (localVariable 0) = .ok id ∧
      id2symbol stoppedTarget id = some (localVariable 0) ∧ localVariable 0 ≠ localVariable stackTopFrame :=
  ⟨idText stoppedTarget (localVariable 0),by decide +kernel,by decide +kernel,by decide +kernel,by decide +kernel⟩

end RoundTrip

end Tcf.SymbolIds
