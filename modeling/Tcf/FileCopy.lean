import Mathlib.Data.List.Basic

/-! The copy command of the file system service, over regular files with names. -/
namespace Tcf.FileCopy

abbrev Text := List UInt8

/-- Files are told apart by numbers, so that two names may be of one file. -/
structure FileSys where
  lookup : Text → Option Nat
  contents : Nat → List UInt8
  next : Nat
  fresh : ∀ path i, lookup path = some i → i < next

namespace FileSys

def setContents (fs : FileSys) (i : Nat) (data : List UInt8) : FileSys :=
  { fs with contents := fun j => if j = i then data else fs.contents j }

/-- `write` at an offset that is not beyond the end. -/
def write (fs : FileSys) (i pos : Nat) (data : List UInt8) : FileSys :=
  fs.setContents i ((fs.contents i).take pos ++ data ++ (fs.contents i).drop (pos + data.length))

/-- `open` with O_CREAT of a name that is not there. -/
def create (fs : FileSys) (path : Text) : FileSys where
  lookup other := if other = path then some fs.next else fs.lookup other
  contents i := if i = fs.next then [] else fs.contents i
  next := fs.next + 1
  fresh other i found := by
    split at found
    · cases found
      exact Nat.lt_succ_self _
    · exact Nat.lt_succ_of_lt (fs.fresh other i found)

/-- `open` with O_WRONLY and O_CREAT. -/
def openDst (fs : FileSys) (path : Text) : FileSys × Nat :=
  match fs.lookup path with
  | some i => (fs,i)
  | none => (fs.create path,fs.next)

@[simp] theorem setContents_lookup (fs : FileSys) (i : Nat) (data : List UInt8) : (fs.setContents i data).lookup = fs.lookup := rfl
@[simp] theorem setContents_same (fs : FileSys) (i : Nat) (data : List UInt8) : (fs.setContents i data).contents i = data := if_pos rfl
@[simp] theorem setContents_other (fs : FileSys) {i j : Nat} (data : List UInt8) (other : j ≠ i) :
    (fs.setContents i data).contents j = fs.contents j := if_neg other
@[simp] theorem write_lookup (fs : FileSys) (i pos : Nat) (data : List UInt8) : (fs.write i pos data).lookup = fs.lookup := rfl

end FileSys

def ENOENT : Int := 2
def ENOSPC : Int := 28

/-- What the system calls answer: an error each, and how much the reads and writes transfer, by their
number. A read of what is there returns some of it. -/
structure Os where
  bufSize : Nat
  stat : Option Int
  openSrc : Option Int
  openDst : Option Int
  read : Nat → Nat → Except Int Nat
  write : Nat → Nat → Except Int Nat
  closeDst : Option Int
  closeSrc : Option Int
  utime : Option Int
  chmod : Option Int
  chown : Option Int
  bufSize_pos : 0 < bufSize
  read_le : ∀ k size rd, read k size = .ok rd → rd ≤ size
  read_pos : ∀ k size rd, 0 < size → read k size = .ok rd → 0 < rd

section Copy

variable (os : Os)

/-- Rounds of the loop, from read number `k` on; `pos` is the offset in both files. -/
def copyLoop (i j size : Nat) : Nat → Nat → Nat → FileSys → Option (FileSys × Option Int)
  | 0, _, _, _ => none
  | rounds + 1, k, pos, fs =>
    if pos < size then
      match os.read k (min os.bufSize ((fs.contents i).length - pos)) with
      | .error err => some (fs,some err)
      | .ok rd =>
        if rd = 0 then some (fs,none)
        else
          match os.write k rd with
          | .error err => some (fs,some err)
          | .ok wr =>
            let after := fs.write j pos (((fs.contents i).drop pos).take (min wr rd))
            if wr < rd then some (after,some ENOSPC)
            else copyLoop i j size rounds (k + 1) (pos + rd) after
    else some (fs,none)

/-- What is done after the loop while there is no error. -/
def finish (copyUidgid copyPerms : Bool) (err : Option Int) : Option Int :=
  [err,os.closeDst,os.closeSrc,os.utime,if copyPerms = true then os.chmod else none,
    if copyUidgid = true then os.chown else none].findSome? id

/-- The files after the command, and the error of the reply. -/
def commandCopy (rounds : Nat) (fs : FileSys) (src dst : Text) (copyUidgid copyPerms : Bool) : Option (FileSys × Option Int) :=
  match fs.lookup src with
  | none => some (fs,some ENOENT)
  | some i =>
    match os.stat <|> os.openSrc <|> os.openDst with
    | some err => some (fs,some err)
    | none => do
      let (after,err) ← copyLoop os i (fs.openDst dst).2 (fs.contents i).length rounds 0 0 (fs.openDst dst).1
      some (after,finish os copyUidgid copyPerms err)

end Copy

section Exact

variable {os : Os} {fs : FileSys} {src dst : Text} {i j pos : Nat} {old new : List UInt8}

/-- The source is as it was, and another file has its first bytes and the others of `old`. -/
structure Copied (fs : FileSys) (i j pos : Nat) (new old : List UInt8) : Prop where
  source : fs.contents i = new
  destination : j ≠ i → fs.contents j = new.take pos ++ old.drop pos

/-- Writing back what was read from the same file. -/
theorem write_back {rd : Nat} (fits : pos + rd ≤ (fs.contents i).length) :
    (fs.write i pos (((fs.contents i).drop pos).take rd)).contents i = fs.contents i := by
  have data : (((fs.contents i).drop pos).take rd).length = rd := by
    rw [List.length_take,List.length_drop]
    omega
  rw [FileSys.write,FileSys.setContents_same,data,← List.take_add,List.take_append_drop]

/-- What is written continues what has been copied. -/
theorem Copied.write {rd : Nat} (copied : Copied fs i j pos new old) (fits : pos + rd ≤ new.length) :
    Copied (fs.write j pos (((fs.contents i).drop pos).take rd)) i j (pos + rd) new old where
  source := by
    by_cases other : j = i
    · subst other
      rw [write_back (by rw [copied.source]; exact fits),copied.source]
    · rw [FileSys.write,FileSys.setContents_other _ _ (Ne.symm other),copied.source]
  destination other := by
    have front : (new.take pos).length = pos := by
      rw [List.length_take]
      omega
    have data : ((new.drop pos).take rd).length = rd := by
      rw [List.length_take,List.length_drop]
      omega
    have kept : (new.take pos ++ old.drop pos).take pos = new.take pos := List.take_left' front
    have rest : (new.take pos ++ old.drop pos).drop (pos + rd) = old.drop (pos + rd) := by
      rw [← List.drop_drop,List.drop_left' front,List.drop_drop]
    rw [FileSys.write,FileSys.setContents_same,copied.source,copied.destination other,data,kept,rest,← List.take_add]

theorem read_fits {k rd size : Nat} (read : os.read k (min os.bufSize (size - pos)) = .ok rd) (before : pos < size) :
    0 < rd ∧ pos + rd ≤ size := by
  have least := os.read_le _ _ _ read
  have some_ := os.read_pos _ _ _ (Nat.lt_min.mpr ⟨os.bufSize_pos,Nat.sub_pos_of_lt before⟩) read
  exact ⟨some_,by omega⟩

/-- By induction on the rounds: the loop ends, and without an error all of the source is copied. -/
theorem copyLoop_copied (os : Os) {rounds k : Nat} (copied : Copied fs i j pos new old) (within : pos ≤ new.length)
    (enough : new.length - pos < rounds) :
    ∃ after err, copyLoop os i j new.length rounds k pos fs = some (after,err) ∧ after.lookup = fs.lookup ∧
      (err = none → Copied after i j new.length new old) := by
  induction rounds generalizing k pos fs with
  | zero => omega
  | succ rounds ih =>
    unfold copyLoop
    by_cases before : pos < new.length
    · rw [if_pos before,copied.source]
      cases read : os.read k (min os.bufSize (new.length - pos)) with
      | error err => exact ⟨fs,some err,rfl,rfl,nofun⟩
      | ok rd =>
        obtain ⟨some_,fits⟩ := read_fits read before
        simp only [Nat.ne_of_gt some_,if_false]
        cases os.write k rd with
        | error err => exact ⟨fs,some err,rfl,rfl,nofun⟩
        | ok wr =>
          simp only
          by_cases short : wr < rd
          · rw [if_pos short]
            exact ⟨_,some ENOSPC,rfl,rfl,nofun⟩
          · rw [if_neg short,Nat.min_eq_right (Nat.le_of_not_lt short)]
            have next := copied.write fits
            rw [copied.source] at next
            exact ih next fits (by omega)
    · rw [if_neg before]
      have all : pos = new.length := by omega
      exact ⟨fs,none,rfl,rfl,fun _ => all ▸ copied⟩

/-- The destination is the source exactly if nothing of another file is left behind it. -/
theorem Copied.same_iff (copied : Copied fs i j new.length new old) :
    fs.contents j = new ↔ j ≠ i → old.length ≤ new.length := by
  by_cases other : j = i
  · subst other
    exact iff_of_true copied.source fun differ => absurd rfl differ
  · rw [copied.destination other,List.take_length]
    constructor
    · intro same _
      have rest : old.drop new.length = [] := List.append_right_eq_self.mp same
      exact List.drop_eq_nil_iff.mp rest
    · intro shorter
      rw [List.drop_eq_nil_of_le (shorter other),List.append_nil]

theorem finish_none {copyUidgid copyPerms : Bool} {err : Option Int} (done : finish os copyUidgid copyPerms err = none) : err = none := by
  cases err with
  | none => rfl
  | some err => cases done

theorem openDst_lookup : (fs.openDst dst).1.lookup dst = some (fs.openDst dst).2 := by
  unfold FileSys.openDst
  split
  · exact ‹_›
  · exact if_pos rfl

/-- A file that is there is opened as it is; a new one is empty. -/
theorem openDst_copied (dst : Text) (source : fs.lookup src = some i) :
    Copied (fs.openDst dst).1 i (fs.openDst dst).2 0 (fs.contents i) (((fs.lookup dst).map fs.contents).getD []) := by
  have older : i < fs.next := fs.fresh src i source
  unfold FileSys.openDst
  cases found : fs.lookup dst with
  | some j => exact ⟨rfl,fun _ => rfl⟩
  | none => exact ⟨if_neg (Nat.ne_of_lt older),fun _ => if_pos rfl⟩

end Exact

section Examples

/-- System calls that succeed, and transfer all that is asked for. -/
def plainOs : Os where
  bufSize := 256
  stat := none
  openSrc := none
  openDst := none
  read _ size := .ok size
  write _ size := .ok size
  closeDst := none
  closeSrc := none
  utime := none
  chmod := none
  chown := none
  bufSize_pos := by decide
  read_le _ _ _ same := Nat.le_of_eq (Except.ok.inj same).symm
  read_pos _ _ _ some_ same := Nat.lt_of_lt_of_eq some_ (Except.ok.inj same)

/-- The file "a" has one byte and "b" has two. -/
def twoFiles : FileSys where
  lookup path := if path = [0x61] then some 0 else if path = [0x62] then some 1 else none
  contents i := if i = 0 then [1] else [2,3]
  next := 2
  fresh path i found := by
    split at found
    · cases found
      decide
    · split at found
      · cases found
        decide
      · cases found

end Examples

end Tcf.FileCopy
