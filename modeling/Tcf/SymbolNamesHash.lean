import Tcf.SymbolNames

/-! When two spellings of one ELF name fall into one chain of the table of names.
A comparison passes over every blank before a bracket, a hash over the last of them only. -/
namespace Tcf.SymbolNames

section Texts

/-- The characters that a hash is made of -/
def hashed : Name → Name
  | [] => []
  | c :: s => if c = atSign ∧ doubled s then [] else if c = blank ∧ opens s then hashed s else c :: hashed s

/-- The characters before `@@` that are no blanks -/
def letters : Name → Name
  | [] => []
  | c :: s => if c = atSign ∧ doubled s then [] else if c = blank then letters s else c :: letters s

/-- For each bracket before `@@`, the blanks that stand before it, less one; `n` blanks have been passed. -/
def surplus : Nat → Name → List Nat
  | _, [] => []
  | n, c :: s =>
    if c = atSign ∧ doubled s then []
    else if c = blank then surplus (n + 1) s
    else if bracket c then (n - 1) :: surplus 0 s
    else surplus 0 s

/-- The same characters other than blanks, and as many blanks beyond the first before each bracket -/
def Alike (x y : Name) : Prop := letters x = letters y ∧ surplus 0 x = surplus 0 y

instance (x y : Name) : Decidable (Alike x y) := inferInstanceAs (Decidable (_ ∧ _))

/-- What is hashed when `n` blanks come first -/
def text (n : Nat) (s : Name) : Name := hashed (List.replicate n blank ++ s)

theorem letters_blank (s : Name) : letters (blank :: s) = letters s := by
  simp [letters,show blank ≠ atSign from by decide]

theorem surplus_blank (n : Nat) (s : Name) : surplus n (blank :: s) = surplus (n + 1) s := by
  simp [surplus,show blank ≠ atSign from by decide]

theorem hashLoop_hashed (s : Name) : ∀ h, hashLoop h s = (hashed s).foldl hashStep h := by
  induction s with
  | nil => intro h; rfl
  | cons c s ih =>
    intro h
    by_cases suffix : c = atSign ∧ doubled s
    · simp [hashLoop,hashed,suffix]
    · by_cases passed : c = blank ∧ opens s
      · simp only [hashLoop,hashed,if_neg suffix,if_pos passed]
        exact ih h
      · simp only [hashLoop,hashed,if_neg suffix,if_neg passed,List.foldl_cons]
        exact ih _

theorem hash_of_hashed {x y : Name} (same : hashed x = hashed y) : calcSymbolNameHash x = calcSymbolNameHash y := by
  simp only [calcSymbolNameHash,hashLoop_hashed,same]

theorem hashed_blank (s : Name) : hashed (blank :: s) = if opens s then hashed s else blank :: hashed s := by
  simp [hashed,show blank ≠ atSign from by decide]

theorem text_zero (s : Name) : text 0 s = hashed s := rfl

theorem text_blank (n : Nat) (s : Name) : text n (blank :: s) = text (n + 1) s := by
  simp only [text,List.replicate_succ',List.append_assoc,List.singleton_append]

/-- Blanks with no bracket behind them are hashed. -/
theorem text_unopened {s : Name} (closed : opens s = false) : ∀ n, text n s = List.replicate n blank ++ hashed s
  | 0 => rfl
  | n+1 => by
    have here := text_unopened closed n
    have unopened : opens (List.replicate n blank ++ s) = false := by
      cases n with
      | zero => simpa using closed
      | succ n => simp [List.replicate_succ,opens,bracket,blank]
    simp only [text,List.replicate_succ,List.cons_append,hashed_blank,unopened,Bool.false_eq_true,if_false]
    rw [show hashed (List.replicate n blank ++ s) = text n s from rfl,here]

/-- The last blank before a bracket is not. -/
theorem text_opened {s : Name} (opened : opens s = true) : ∀ n, text n s = List.replicate (n - 1) blank ++ hashed s
  | 0 => rfl
  | 1 => by simp [text,hashed_blank,opened]
  | n+2 => by
    have here := text_opened opened (n + 1)
    have unopened : opens (List.replicate (n + 1) blank ++ s) = false := by
      simp [List.replicate_succ,opens,bracket,blank]
    have unfolded : text (n + 2) s = blank :: text (n + 1) s := by
      simp only [text,List.replicate_succ (n := n + 1),List.cons_append,hashed_blank,unopened,Bool.false_eq_true,if_false]
    rw [unfolded,here]
    simp [List.replicate_succ]

end Texts

section Comparisons

theorem charOrder_zero {x y : UInt8} (zero : charOrder x y = 0) : x = y := by
  simp only [charOrder] at zero
  split at zero
  · cases zero
  · split at zero
    · cases zero
    · rename_i above below
      have same : x.toInt8 = y.toInt8 := by
        simp only [Int8.lt_iff_toInt_lt] at above below
        exact Int8.toInt_inj.mp (by omega)
      simpa using congrArg Int8.toUInt8 same

theorem opens_cons (c : UInt8) (s : Name) : opens (c :: s) = bracket c := rfl

theorem bracket_blank : bracket blank = false := by decide
theorem bracket_atSign : bracket atSign = false := by decide
theorem bracket_zero : bracket 0 = false := by decide

/-- Characters that end a pending run of blanks differ from a blank. -/
theorem replicate_cons {a b : UInt8} (x y : Name) (la : a ≠ blank) (lb : b ≠ blank) : ∀ n m,
    List.replicate n blank ++ a :: x = List.replicate m blank ++ b :: y ↔ n = m ∧ a = b ∧ x = y
  | 0, 0 => by simp
  | 0, m+1 => by simp [List.replicate_succ,la]
  | n+1, 0 => by simp [List.replicate_succ,Ne.symm lb]
  | n+1, m+1 => by simp [List.replicate_succ,replicate_cons x y la lb n m]

/-- Where two spellings compare equal, they are hashed alike when they are alike, from any pending blanks on. -/
theorem alike_text (x y : Name) (equal : cmpSymbolNames x y = 0) : ∀ n m, n = m ∨ opens x ∨ opens y →
    (letters x = letters y ∧ surplus n x = surplus m y ↔ text n x = text m y) := by
  fun_induction cmpSymbolNames x y with
  | case1 =>
    intro n m pending
    obtain rfl : n = m := by simpa [opens] using pending
    simp [letters,surplus]
  | case2 b y suffix =>
    intro n m pending
    obtain ⟨rfl,doubled⟩ := suffix
    obtain rfl : n = m := by simpa [opens,bracket_atSign] using pending
    simp [letters,surplus,doubled,text_unopened,opens_cons,bracket_atSign,hashed,show opens [] = false from rfl]
  | case3 b y suffix =>
    intro n m pending
    have nul : (0 : UInt8) = b := charOrder_zero equal
    subst nul
    obtain rfl : n = m := by simpa [opens,bracket_zero] using pending
    have shown : ¬((0 : UInt8) = atSign) ∧ ¬((0 : UInt8) = blank) := by decide
    simp [letters,shown,text_unopened,opens_cons,bracket_zero,hashed,show opens [] = false from rfl]
  | case4 a x suffix =>
    intro n m pending
    obtain ⟨rfl,doubled⟩ := suffix
    obtain rfl : n = m := by simpa [opens,bracket_atSign] using pending
    simp [letters,surplus,doubled,text_unopened,opens_cons,bracket_atSign,hashed,show opens [] = false from rfl]
  | case5 a x suffix =>
    intro n m pending
    have nul : a = (0 : UInt8) := charOrder_zero equal
    subst nul
    obtain rfl : n = m := by simpa [opens,bracket_zero] using pending
    have shown : ¬((0 : UInt8) = atSign) ∧ ¬((0 : UInt8) = blank) := by decide
    simp [letters,shown,text_unopened,opens_cons,bracket_zero,hashed,show opens [] = false from rfl]
  | case6 a x b y differ skipped ih =>
    intro n m pending
    obtain ⟨rfl,bracketed⟩ := skipped
    rw [letters_blank,surplus_blank,text_blank]
    exact ih equal n (m + 1) (Or.inr (Or.inl bracketed))
  | case7 a x b y differ _ skipped ih =>
    intro n m pending
    obtain ⟨rfl,bracketed⟩ := skipped
    rw [letters_blank,surplus_blank,text_blank]
    exact ih equal (n + 1) m (Or.inr (Or.inr bracketed))
  | case8 a x b y differ => exact absurd (charOrder_zero equal) differ
  | case9 a x b y same ih =>
    intro n m pending
    obtain rfl : a = b := by simpa using same
    by_cases spaced : a = blank
    · subst spaced
      obtain rfl : n = m := by simpa [opens_cons,bracket_blank] using pending
      rw [letters_blank,letters_blank,surplus_blank,surplus_blank,text_blank,text_blank]
      exact ih equal _ _ (Or.inl rfl)
    by_cases bracketed : bracket a = true
    · have letter : a ≠ atSign := by
        rintro rfl
        exact absurd bracketed (by decide)
      rw [text_opened (opens_cons a x ▸ bracketed),text_opened (opens_cons a y ▸ bracketed)]
      have rest := ih equal 0 0 (Or.inl rfl)
      simp only [text_zero] at rest
      simp only [letters,surplus,hashed,letter,spaced,bracketed,false_and,if_false,if_true,List.cons.injEq,true_and,
        replicate_cons _ _ spaced spaced]
      rw [← rest]
      exact and_left_comm
    · have closed : bracket a = false := by simpa using bracketed
      obtain rfl : n = m := by simpa [opens_cons,closed] using pending
      rw [text_unopened (opens_cons a x ▸ closed),text_unopened (opens_cons a y ▸ closed)]
      have rest := ih equal 0 0 (Or.inl rfl)
      simp only [text_zero] at rest
      rw [List.append_cancel_left_eq]
      -- the suffix may begin here in both names, in one of them, or in none
      have unspaced (s : Name) : ¬(a = blank ∧ opens s = true) := fun both => spaced both.1
      simp only [letters,surplus,hashed,if_neg spaced,if_neg (unspaced _),closed,Bool.false_eq_true,if_false]
      by_cases left : a = atSign ∧ doubled x = true <;> by_cases right : a = atSign ∧ doubled y = true
      · simp only [if_pos left,if_pos right,and_self]
      · simp [if_pos left,if_neg right]
      · simp [if_neg left,if_pos right]
      · simpa [if_neg left,if_neg right] using rest

end Comparisons

section Tables

/-- `n` is passed on the way from `head` along a chain. -/
inductive Passes (next : Nat → Nat) : Nat → Nat → Prop
  | here (n) : Passes next n n
  | later {head n} : Passes next (next head) n → Passes next head n

/-- Every link leads to a smaller symbol or ends the chain; the chains begin below `i`. -/
structure Linked (i : Nat) (tbl : NamesHash) : Prop where
  heads : ∀ b, tbl.hash b < i ∨ tbl.hash b = 0
  links : ∀ n, tbl.next n < n ∨ tbl.next n = 0

theorem Passes.upto {next : Nat → Nat} (links : ∀ n, next n < n ∨ next n = 0) {head n : Nat}
    (path : Passes next head n) : n ≤ head := by
  induction path with
  | here n => exact Nat.le_refl n
  | @later head n rest ih => have := links head; omega

/-- A link that is set above a chain does not change it. -/
theorem Passes.update {next : Nat → Nat} (links : ∀ n, next n < n ∨ next n = 0) {head n i target : Nat} (below : head < i)
    (path : Passes next head n) : Passes (Function.update next i target) head n := by
  induction path with
  | here n => exact .here n
  | @later head n rest ih =>
    have := links head
    have kept : Function.update next i target head = next head := Function.update_of_ne (Nat.ne_of_lt below) ..
    refine .later ?_
    rw [kept]
    exact ih (by omega)

theorem mem_chain {tbl : NamesHash} (links : ∀ n, tbl.next n < n ∨ tbl.next n = 0) {n : Nat} (some : 0 < n) :
    ∀ {rounds head}, head ≤ rounds → Passes tbl.next head n → n ∈ chain tbl rounds head
  | 0, head, short, path => by have := path.upto links; omega
  | rounds+1, head, short, path => by
    have above := path.upto links
    rw [chain,if_neg (by omega)]
    cases path with
    | here => exact List.mem_cons_self
    | later rest =>
      have := links head
      exact List.mem_cons_of_mem _ (mem_chain links some (by omega) rest)

theorem enter_linked {size i : Nat} {tbl : NamesHash} (linked : Linked i tbl) (sym : SymbolInfo) :
    Linked (i + 1) (enter size i sym tbl) := by
  cases entered : sym.entered with
  | none =>
    simp only [enter,entered]
    exact ⟨fun b => (linked.heads b).imp_left fun below => by omega,linked.links⟩
  | some name =>
    simp only [enter,entered]
    constructor
    · intro b
      have old := linked.heads b
      simp only [Function.update_apply]
      split <;> omega
    · intro n
      have old := linked.heads (bucket size name)
      have link := linked.links n
      simp only [Function.update_apply]
      split <;> omega

/-- A symbol that is found in a bucket stays in it. -/
theorem enter_kept {size i : Nat} {tbl : NamesHash} (linked : Linked i tbl) (sym : SymbolInfo) {b n : Nat} (some : 0 < n)
    (path : Passes tbl.next (tbl.hash b) n) : Passes (enter size i sym tbl).next ((enter size i sym tbl).hash b) n := by
  have above := path.upto linked.links
  have below : tbl.hash b < i := by have := linked.heads b; omega
  cases entered : sym.entered with
  | none =>
    simp only [enter,entered]
    exact path
  | some name =>
    have kept : Passes (Function.update tbl.next i (tbl.hash (bucket size name))) (tbl.hash b) n :=
      path.update linked.links below
    simp only [enter,entered,Function.update_apply]
    split
    · rename_i bucketed
      refine .later ?_
      rw [Function.update_self,← bucketed]
      exact bucketed ▸ kept
    · exact kept

theorem enter_here {size i : Nat} {tbl : NamesHash} {sym : SymbolInfo} {name : Name} (entered : sym.entered = some name) :
    (enter size i sym tbl).hash (bucket size name) = i := by
  simp [enter,entered]

theorem enterFrom_linked {size : Nat} (syms : List SymbolInfo) : ∀ {i tbl}, Linked i tbl →
    Linked (i + syms.length) (enterFrom size i syms tbl) := by
  induction syms with
  | nil => intro i tbl linked; exact linked
  | cons sym syms ih =>
    intro i tbl linked
    have next : Linked (i + 1) (enter size i sym tbl) := enter_linked linked sym
    have rest := ih next
    rw [List.length_cons,← Nat.add_assoc,Nat.add_right_comm]
    exact rest

theorem enterFrom_kept {size b n : Nat} (some : 0 < n) (syms : List SymbolInfo) : ∀ {i tbl}, Linked i tbl →
    Passes tbl.next (tbl.hash b) n → Passes (enterFrom size i syms tbl).next ((enterFrom size i syms tbl).hash b) n := by
  induction syms with
  | nil => intro i tbl _ path; exact path
  | cons sym syms ih =>
    intro i tbl linked path
    exact ih (enter_linked linked sym) (enter_kept linked sym some path)

/-- Every symbol of the loop comes into the bucket of its name. -/
theorem enterFrom_entered {size : Nat} {name : Name} (syms : List SymbolInfo) : ∀ {i k tbl}, Linked i tbl → 0 < i + k →
    (syms[k]?).bind SymbolInfo.entered = some name →
    Passes (enterFrom size i syms tbl).next ((enterFrom size i syms tbl).hash (bucket size name)) (i + k) := by
  induction syms with
  | nil => intro i k tbl _ _ entered; simp at entered
  | cons sym syms ih =>
    intro i k tbl linked above entered
    have next : Linked (i + 1) (enter size i sym tbl) := enter_linked linked sym
    cases k with
    | zero =>
      have here : (enter size i sym tbl).hash (bucket size name) = i := enter_here (by simpa using entered)
      have path : Passes (enter size i sym tbl).next ((enter size i sym tbl).hash (bucket size name)) i := by
        rw [here]
        exact .here i
      exact enterFrom_kept above syms next path
    | succ k =>
      have rest := ih next (k := k) (by omega) (by simpa using entered)
      rwa [Nat.add_right_comm,Nat.add_assoc] at rest

/-- A search under a name of the same hash passes over every symbol that was entered. -/
theorem candidate {syms : List SymbolInfo} {i : Nat} {name searched : Name} (above : 0 < i)
    (entered : (syms[i]?).bind SymbolInfo.entered = some name)
    (same : calcSymbolNameHash searched = calcSymbolNameHash name) : i ∈ candidates syms searched := by
  have empty : Linked 0 ⟨fun _ => 0,fun _ => 0⟩ := ⟨fun _ => Or.inr rfl,fun _ => Or.inr rfl⟩
  have linked : Linked (0 + syms.length) (createSymbolNamesHash syms) := enterFrom_linked syms empty
  have path : Passes (createSymbolNamesHash syms).next ((createSymbolNamesHash syms).hash (bucket syms.length name)) (0 + i) :=
    enterFrom_entered syms empty (by omega) entered
  have short : (createSymbolNamesHash syms).hash (bucket syms.length searched) ≤ syms.length := by
    have := linked.heads (bucket syms.length searched)
    omega
  have bucketed : bucket syms.length name = bucket syms.length searched := by simp only [bucket,same]
  rw [Nat.zero_add,bucketed] at path
  exact mem_chain linked.links above short path

end Tables

section Spellings

/-- The spellings that compare equal to a name of the table are those under which it is found, where they have as many
blanks beyond the first before each bracket and the same suffix, and begin with the same character. -/
theorem spelling_hashed {x y : Name} (equal : cmpSymbolNames x y = 0) :
    (Alike x y ↔ hashed x = hashed y) ∧
    (Alike x y → calcSymbolNameHash x = calcSymbolNameHash y ∧
      ∀ (syms : List SymbolInfo) (i : Nat), 0 < i → (syms[i]?).bind SymbolInfo.entered = some y →
        (i ∈ findByName syms x ↔ x.headD 0 = y.headD 0)) := by
  have texts : Alike x y ↔ hashed x = hashed y := alike_text x y equal 0 0 (Or.inl rfl)
  refine ⟨texts,fun alike => ?_⟩
  have same := hash_of_hashed (texts.mp alike)
  refine ⟨same,fun syms i above entered => ?_⟩
  have met : i ∈ candidates syms x := candidate above entered same
  have named : syms[i]?.bind SymbolInfo.name = some y := by
    obtain ⟨sym,stored,entered⟩ := Option.bind_eq_some_iff.mp entered
    simp only [SymbolInfo.entered] at entered
    split at entered
    · cases entered
    · simpa [stored] using entered
  simp [findByName,met,named,equSymbolNames,equal]

/-- A blank before the bracket in one spelling, none in the other -/
theorem spelling_hashed_call : cmpSymbolNames [0x66,0x20,0x28] [0x66,0x28] = 0 ∧
    calcSymbolNameHash [0x66,0x20,0x28] = calcSymbolNameHash [0x66,0x28] := by
  have equal : cmpSymbolNames [0x66,0x20,0x28] [0x66,0x28] = 0 := by simp [cmpSymbolNames,bracket,blank]
  exact ⟨equal,((spelling_hashed equal).2 (by decide)).1⟩

/-- Two blanks before a bracket compare equal to none; the hash has one of them. -/
theorem spelling_lost : ¬∀ x y : Name, cmpSymbolNames x y = 0 → calcSymbolNameHash x = calcSymbolNameHash y := by
  intro claim
  have equal : cmpSymbolNames [0x66,0x20,0x20,0x28] [0x66,0x28] = 0 := by simp [cmpSymbolNames,bracket,blank]
  exact absurd (claim _ _ equal) (by decide)

end Spellings

end Tcf.SymbolNames
