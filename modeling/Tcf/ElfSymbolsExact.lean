import Tcf.ElfSymbols
import Tcf.Base.Sorting
import Mathlib.Data.List.Forall2

/-! Which symbols `elf_find_symbol_by_address` and the steps from a symbol find, and for which sections these are all. -/
namespace Tcf.ElfSymbols

section Specification

/-- A file that has been opened. `create_elf_cache` unpacks every symbol of every table for the table of names, and an
exception there keeps the file from being opened. -/
structure OpenFile extends ElfFile where
  unpacks : ∀ t tbl, 0 < t → sections[t]? = some tbl → ∀ n < tbl.symCount, ∃ sym, unpackElfSymbolInfo toElfFile t n tbl = .ok sym

/-- The symbols that the index of a section gets -/
def symbols (file : ElfFile) (m : Nat) (sec : Section) : List SecSymbol := (collect file m sec 1 (file.sections.drop 1)).1

/-- The end of a section, without a wrap -/
def Section.limit (sec : Section) : Nat := sec.addr.toNat + sec.size.toNat

/-- `e` is the last of the symbols at or below `addr`; behind the last symbol of all the section ends above `addr`. -/
structure At (symbols : List SecSymbol) (limit : Nat) (addr : UInt64) (e : SecSymbol) : Prop where
  mem : e ∈ symbols
  below : e.address ≤ addr
  last : ∀ e' ∈ symbols, e'.address ≤ addr → (sectionSymbolComparator e' e).isLE
  inside : (∀ e' ∈ symbols, (sectionSymbolComparator e' e).isLE) → addr.toNat < limit

/-- What is returned is a symbol of the index and of section `m`. -/
def Stands (file : ElfFile) (m : Nat) (sym : ElfSymbolInfo) (e : SecSymbol) : Prop :=
  sym.section = some m ∧ ∃ tbl, file.sections[e.tbl]? = some tbl ∧
    unpackElfSymbolInfo file e.tbl e.index tbl = .ok { sym with addrIndex := 0 }

/-- The symbols that are met until a step finds none -/
def walk (move : ElfSymbolInfo → Code (Option ElfSymbolInfo)) : Nat → ElfSymbolInfo → Code (List ElfSymbolInfo)
  | 0, _ => .ok []
  | rounds+1, sym => do
    match ← move sym with
    | none => return []
    | some next =>
      let rest ← walk move rounds next
      return next :: rest

/-- The steps back and forth from a symbol meet every symbol once, in their order. -/
def Enumerates (file : ElfFile) (tables : Tables) (m : Nat) (symbols : List SecSymbol) (sym : ElfSymbolInfo) : Prop :=
  ∃ before after order, walk (elfPrevSymbolByAddress file tables) (symbols.length + 1) sym = .ok before ∧
    walk (elfNextSymbolByAddress file tables) (symbols.length + 1) sym = .ok after ∧
    order.Perm symbols ∧ order.Pairwise (fun x y => (sectionSymbolComparator x y).isLE) ∧
    List.Forall₂ (Stands file m) (before.reverse ++ sym :: after) order

/-- A lookup finds the symbol that is sought, or none where there is none. -/
def Finds (file : ElfFile) (m : Nat) (sec : Section) (addr : UInt64) (result : Tables × Code (Option ElfSymbolInfo)) : Prop :=
  match result.2 with
  | .error _ => False
  | .ok none => ∀ e, ¬At (symbols file m sec) sec.limit addr e
  | .ok (some sym) => (∃ e, At (symbols file m sec) sec.limit addr e ∧ Stands file m sym e) ∧
      Enumerates file result.1 m (symbols file m sec) sym

/-- The indexes after lookups on any sections -/
def visited (q : Qsort) (file : ElfFile) (lookups : List (Nat × UInt64)) : Tables :=
  lookups.foldl (fun tables look => (elfFindSymbolByAddress q file tables look.1 look.2).1) fun _ => []

/-- Every lookup of a section is exact, after whatever lookups. -/
def Exact (q : Qsort) (file : ElfFile) (m : Nat) : Prop := ∀ sec, file.sections[m]? = some sec → ∀ lookups addr,
  Finds file m sec addr (elfFindSymbolByAddress q file (visited q file lookups) m addr)

/-- The symbols of a section are inside it or at its end, which is an address; where one of them lies before the end, the
entries that are unpacked are of the section. -/
structure Orderly (file : ElfFile) (m : Nat) (sec : Section) : Prop where
  low : ∀ e ∈ symbols file m sec, sec.addr ≤ e.address
  high : ∀ e ∈ symbols file m sec, e.address.toNat ≤ sec.limit
  ends : symbols file m sec ≠ [] → sec.limit < 2 ^ 64
  owned : (∃ e ∈ symbols file m sec, e.address.toNat < sec.limit) → ∀ e ∈ symbols file m sec, ∀ tbl,
    file.sections[e.tbl]? = some tbl → file.sectionOf (tbl.symAt (tbl.entsize * e.index)).shndx = some m

end Specification

variable {k : Nat} {e : SecSymbol}

section Order

theorem comparator_isLE {x y : SecSymbol} : (sectionSymbolComparator x y).isLE ↔
    x.address.toNat < y.address.toNat ∨ x.address.toNat = y.address.toNat ∧ x.index ≤ y.index := by
  rw [sectionSymbolComparator,Ordering.isLE_then_iff_or,Nat.compare_eq_lt,Nat.compare_eq_eq,Nat.isLE_compare]

variable {table : List SecSymbol} {symbols : List SecSymbol} {limit : Nat} {addr : UInt64}

theorem stored (inside : k < table.length) : ∃ e, table[k]? = some e := ⟨table.get ⟨k,inside⟩,List.getElem?_eq_getElem inside⟩

section

variable (sorted : table.Pairwise fun x y => (sectionSymbolComparator x y).isLE)

include sorted

theorem sorted_get {i j : Nat} {x y : SecSymbol}
    (first : table[i]? = some x) (second : table[j]? = some y) (le : i ≤ j) : (sectionSymbolComparator x y).isLE := by
  obtain ⟨hi,rfl⟩ := List.getElem?_eq_some_iff.mp first
  obtain ⟨hj,rfl⟩ := List.getElem?_eq_some_iff.mp second
  rcases Nat.lt_or_eq_of_le le with less | rfl
  · exact List.pairwise_iff_getElem.mp sorted i j hi hj less
  · rw [comparator_isLE]
    exact .inr ⟨rfl,Nat.le_refl _⟩

theorem sorted_address {i j : Nat} {x y : SecSymbol}
    (first : table[i]? = some x) (second : table[j]? = some y) (le : i ≤ j) : x.address.toNat ≤ y.address.toNat := by
  have := comparator_isLE.mp (sorted_get sorted first second le)
  omega

/-- The place of the index that a search for `addr` is to find -/
def Place (table : List SecSymbol) (limit : Nat) (addr : UInt64) (k : Nat) (e : SecSymbol) : Prop :=
  table[k]? = some e ∧ e.address ≤ addr ∧ (∀ next ∈ table[k + 1]?, addr < next.address) ∧ (table[k + 1]? = none → addr.toNat < limit)

theorem Place.at
    (perm : table.Perm symbols) (place : Place table limit addr k e) : At symbols limit addr e := by
  obtain ⟨here,below,next,inside⟩ := place
  refine ⟨perm.mem_iff.mp (List.mem_of_getElem? here),below,fun e' member low => ?_,fun all => ?_⟩
  · obtain ⟨j,there⟩ := List.getElem?_of_mem (perm.mem_iff.mpr member)
    rcases Nat.lt_or_ge k j with behind | before
    · obtain ⟨inside,_⟩ := List.getElem?_eq_some_iff.mp there
      obtain ⟨next',after⟩ : ∃ e, table[k + 1]? = some e := stored (by omega)
      have above := next _ after
      have le := sorted_address sorted after there behind
      rw [UInt64.lt_iff_toNat_lt] at above
      rw [UInt64.le_iff_toNat_le] at low
      omega
    · exact sorted_get sorted there here before
  · cases after : table[k + 1]? with
    | none => exact inside after
    | some e' =>
      have above := next e' after
      have le := comparator_isLE.mp (all e' (perm.mem_iff.mp (List.mem_of_getElem? after)))
      rw [UInt64.lt_iff_toNat_lt] at above
      rw [UInt64.le_iff_toNat_le] at below
      omega

omit sorted in
/-- The last place with a property -/
theorem last_place {p : SecSymbol → Prop} (table : List SecSymbol) (exists_ : ∃ e ∈ table, p e) :
    ∃ k e, table[k]? = some e ∧ p e ∧ ∀ (j : Nat) (e' : SecSymbol), k < j → table[j]? = some e' → ¬p e' := by
  induction table with
  | nil =>
    obtain ⟨e,member,_⟩ := exists_
    cases member
  | cons x rest ih =>
    by_cases later : ∃ e ∈ rest, p e
    · obtain ⟨k,e,here,holds,behind⟩ := ih later
      refine ⟨k + 1,e,here,holds,fun j e' less there => ?_⟩
      cases j with
      | zero => omega
      | succ j => exact behind j e' (by omega) there
    · obtain ⟨e,member,holds⟩ := exists_
      rcases List.mem_cons.mp member with rfl | member
      · refine ⟨0,e,rfl,holds,fun j e' less there sought => later ⟨e',?_,sought⟩⟩
        cases j with
        | zero => omega
        | succ j => exact List.mem_of_getElem? there
      · exact absurd ⟨e,member,holds⟩ later

theorem At.place
    (perm : table.Perm symbols) (found : At symbols limit addr e) : ∃ k e', Place table limit addr k e' := by
  obtain ⟨k,e',here,below,behind⟩ := last_place (p := fun x => x.address ≤ addr) table ⟨e,perm.mem_iff.mpr found.mem,found.below⟩
  refine ⟨k,e',here,below,fun next after => ?_,fun ended => found.inside fun x member => found.last x member ?_⟩
  · exact UInt64.not_le.mp (behind (k + 1) next (Nat.lt_succ_self k) after)
  · obtain ⟨j,there⟩ := List.getElem?_of_mem (perm.mem_iff.mpr member)
    have inside := (List.getElem?_eq_some_iff.mp there).1
    have outside := List.getElem?_eq_none_iff.mp ended
    have le := sorted_address sorted there here (by omega)
    rw [UInt64.le_iff_toNat_le] at *
    omega

end

end Order

section Searches

variable {sec : Section} {table : List SecSymbol} {addr : UInt64}

/-- The end of the section as the code has it -/
theorem end_toNat (ends : sec.limit < 2 ^ 64) : (sec.addr + sec.size).toNat = sec.limit := by
  rw [UInt64.toNat_add]
  exact Nat.mod_eq_of_lt ends

theorem nextAddress_some {next : SecSymbol} (after : table[k + 1]? = some next) : nextAddress sec table k = next.address := by
  simp only [nextAddress,after]

theorem nextAddress_none (after : table[k + 1]? = none) : nextAddress sec table k = sec.addr + sec.size := by
  simp only [nextAddress,after]

/-- What the assertion of the search needs -/
structure Bounded (sec : Section) (table : List SecSymbol) : Prop where
  sorted : table.Pairwise fun x y => (sectionSymbolComparator x y).isLE
  high : ∀ e ∈ table, e.address.toNat ≤ sec.limit
  ends : table ≠ [] → sec.limit < 2 ^ 64

theorem Bounded.next (bounded : Bounded sec table) (here : table[k]? = some e) :
    e.address ≤ nextAddress sec table k := by
  cases after : table[k + 1]? with
  | some next =>
    rw [nextAddress_some after,UInt64.le_iff_toNat_le]
    exact sorted_address bounded.sorted here after (Nat.le_succ k)
  | none =>
    have member := List.mem_of_getElem? here
    rw [nextAddress_none after,UInt64.le_iff_toNat_le,end_toNat (bounded.ends (List.ne_nil_of_mem member))]
    exact bounded.high e member

theorem Bounded.probe_some (bounded : Bounded sec table) (here : table[k]? = some e) :
    probe sec table addr k = if addr < e.address then .gt else if nextAddress sec table k ≤ addr then .lt else .eq := by
  have next := bounded.next here
  simp only [probe,here]
  split
  · rfl
  · rw [if_neg (UInt64.not_lt.mpr next)]

theorem probe_none (nothing : table[k]? = none) : probe sec table addr k = .gt := by
  simp only [probe,nothing]

theorem Bounded.probe_place (bounded : Bounded sec table) : probe sec table addr k = .eq ↔
    ∃ e, Place table sec.limit addr k e := by
  cases here : table[k]? with
  | none =>
    rw [probe_none here]
    refine ⟨nofun,?_⟩
    rintro ⟨e,there,_⟩
    rw [here] at there
    cases there
  | some e =>
    rw [bounded.probe_some here]
    have ends := bounded.ends (List.ne_nil_of_mem (List.mem_of_getElem? here))
    have place : (∃ e', Place table sec.limit addr k e') ↔ ¬addr < e.address ∧ ¬nextAddress sec table k ≤ addr := by
      rw [UInt64.not_lt,UInt64.not_le]
      cases after : table[k + 1]? with
      | some next => simp [Place,here,after,nextAddress_some after]
      | none => simp [Place,here,after,nextAddress_none after,UInt64.lt_iff_toNat_lt,end_toNat ends]
    rw [place]
    by_cases above : addr < e.address
    · simp [above]
    · by_cases behind : nextAddress sec table k ≤ addr
      · simp [above,behind]
      · simp [above,behind]

theorem Bounded.probe_sorted (bounded : Bounded sec table) : Bisection.Sorted (probe sec table addr) := by
  intro i j le
  constructor
  · intro less
    cases there : table[j]? with
    | none =>
      rw [probe_none there] at less
      cases less
    | some y =>
      rw [bounded.probe_some there] at less
      have inside := (List.getElem?_eq_some_iff.mp there).1
      obtain ⟨x,here⟩ : ∃ e, table[i]? = some e := stored (by omega)
      by_cases above : addr < y.address
      · simp [above] at less
      by_cases behind : nextAddress sec table j ≤ addr
      · have low := UInt64.le_iff_toNat_le.mp (UInt64.not_lt.mp above)
        have first := sorted_address bounded.sorted here there le
        rw [bounded.probe_some here,if_neg (by rw [UInt64.lt_iff_toNat_lt]; omega),if_pos]
        rcases Nat.lt_or_eq_of_le le with less | rfl
        · obtain ⟨next,after⟩ : ∃ e, table[i + 1]? = some e := stored (by omega)
          have second := sorted_address bounded.sorted after there less
          rw [nextAddress_some after,UInt64.le_iff_toNat_le]
          omega
        · exact behind
      · simp [above,behind] at less
  · intro more
    cases there : table[j]? with
    | none => exact probe_none there
    | some y =>
      have inside := (List.getElem?_eq_some_iff.mp there).1
      obtain ⟨x,here⟩ : ∃ e, table[i]? = some e := stored (by omega)
      rw [bounded.probe_some here] at more
      have first := sorted_address bounded.sorted here there le
      by_cases above : addr < x.address
      · rw [bounded.probe_some there,if_pos]
        rw [UInt64.lt_iff_toNat_lt] at above ⊢
        omega
      · rw [if_neg above] at more
        split at more <;> cases more

/-- A search ends at the place that is sought, or there is none. -/
theorem Bounded.places (bounded : Bounded sec table) (addr : UInt64) : (∃ k e, Place table sec.limit addr k e ∧
      Bisection.bisect (probe sec table addr) table.length 0 table.length = some k) ∨
    (∀ k e, ¬Place table sec.limit addr k e) ∧ Bisection.bisect (probe sec table addr) table.length 0 table.length = none := by
  cases result : Bisection.bisect (probe sec table addr) table.length 0 table.length with
  | some k =>
    obtain ⟨_,_,there⟩ := Bisection.bisect_some result
    obtain ⟨e,place⟩ := bounded.probe_place.mp there
    exact .inl ⟨k,e,place,rfl⟩
  | none =>
    refine .inr ⟨fun k e place => ?_,rfl⟩
    have inside := (List.getElem?_eq_some_iff.mp place.1).1
    exact Bisection.bisect_none bounded.probe_sorted (by omega) result (Nat.zero_le k) inside (bounded.probe_place.mpr ⟨e,place⟩)

end Searches

section Building

variable {file : OpenFile} {m : Nat} {sec : Section}

theorem check_bind {holds : Prop} [Decidable holds] {stop : Stop} {α : Type} {next : Unit → Code α} {a : α}
    (run : (check holds stop >>= next) = .ok a) : holds ∧ next () = .ok a := by
  rw [check] at run
  split at run
  · exact ⟨‹holds›,run⟩
  · cases run

theorem bind_ok {α β : Type} {code : Code α} {next : α → Code β} {b : β} (run : (code >>= next) = .ok b) :
    ∃ a, code = .ok a ∧ next a = .ok b := by
  cases code with
  | error stop => cases run
  | ok a => exact ⟨a,rfl,run⟩

/-- What unpacking a symbol rests on, and the section that it gives -/
theorem unpack_ok {file : ElfFile} {t n : Nat} {tbl : Section} {sym : ElfSymbolInfo}
    (run : unpackElfSymbolInfo file t n tbl = .ok sym) : tbl.load = .ok () ∧ sym.addrIndex = 0 ∧
      sym.section = file.sectionOf (tbl.symAt (tbl.entsize * n)).shndx := by
  rw [unpackElfSymbolInfo] at run
  obtain ⟨_,run⟩ := check_bind run
  obtain ⟨_,run⟩ := check_bind run
  obtain ⟨_,loads,run⟩ := bind_ok run
  obtain ⟨name,_,run⟩ := bind_ok run
  cases run
  exact ⟨loads,rfl,rfl⟩

theorem collect_mem {file : ElfFile} (tbls : List Section) : ∀ {t}, e ∈ (collect file m sec t tbls).1 →
    ∃ i tbl, tbls[i]? = some tbl ∧ e.tbl = t + i ∧ e.index < tbl.symCount := by
  induction tbls with
  | nil => intro t member; cases member
  | cons tbl tbls ih =>
    intro t member
    have later (member : e ∈ (collect file m sec (t + 1) tbls).1) :
        ∃ i tbl', (tbl :: tbls)[i]? = some tbl' ∧ e.tbl = t + i ∧ e.index < tbl'.symCount := by
      obtain ⟨i,tbl',there,number,bound⟩ := ih member
      exact ⟨i + 1,tbl',there,by omega,bound⟩
    rw [collect] at member
    split at member
    · exact later member
    · split at member
      · cases member
      · rcases List.mem_append.mp member with here | member
        · obtain ⟨n,inside,entry⟩ := List.mem_filterMap.mp here
          have range := List.mem_range'_1.mp inside
          simp only [indexed] at entry
          split at entry
          · cases entry
            exact ⟨0,tbl,rfl,rfl,by dsimp only; omega⟩
          · cases entry
        · exact later member

theorem collect_loads {file : ElfFile} (tbls : List Section) (loads : ∀ tbl ∈ tbls, tbl.symCount ≠ 0 → tbl.load = .ok ()) :
    ∀ {t}, (collect file m sec t tbls).2 = .ok () := by
  induction tbls with
  | nil => intro t; rfl
  | cons tbl tbls ih =>
    intro t
    obtain ⟨first,later⟩ := List.forall_mem_cons.mp loads
    rw [collect]
    split
    · exact ih later
    · rename_i filled
      simp only [first filled]
      exact ih later

/-- The tables of an open file have been loaded. -/
theorem OpenFile.loads (file : OpenFile) {tbl : Section} (member : tbl ∈ file.sections.drop 1) (filled : tbl.symCount ≠ 0) :
    tbl.load = .ok () := by
  obtain ⟨i,there⟩ := List.getElem?_of_mem member
  rw [List.getElem?_drop] at there
  obtain ⟨sym,run⟩ := file.unpacks (1 + i) tbl (by omega) there 0 (by omega)
  exact (unpack_ok run).1

/-- An index is built to its end. -/
theorem create_complete (q : Qsort) : createSymbolAddrSearchIndex q file.toElfFile m sec = (q.sort (symbols file.toElfFile m sec),.ok ()) := by
  have complete : (collect file.toElfFile m sec 1 (file.sections.drop 1)).2 = .ok () :=
    collect_loads _ fun tbl member => file.loads member
  rw [createSymbolAddrSearchIndex,symbols]
  cases run : collect file.toElfFile m sec 1 (file.sections.drop 1) with
  | mk entries code =>
    rw [run] at complete
    cases complete
    rfl

theorem symbol_unpacks (member : e ∈ symbols file.toElfFile m sec) : ∃ tbl sym,
    file.sections[e.tbl]? = some tbl ∧ unpackElfSymbolInfo file.toElfFile e.tbl e.index tbl = .ok sym := by
  obtain ⟨i,tbl,there,number,bound⟩ := collect_mem _ member
  rw [List.getElem?_drop,← number] at there
  obtain ⟨sym,run⟩ := file.unpacks e.tbl tbl (by omega) there e.index bound
  exact ⟨tbl,sym,there,run⟩

/-- No index is there in part. -/
def Built (q : Qsort) (file : ElfFile) (tables : Tables) : Prop :=
  ∀ m, tables m = [] ∨ ∃ sec, file.sections[m]? = some sec ∧ tables m = q.sort (symbols file m sec)

/-- What a lookup does to the indexes, and where it searches -/
theorem find_cases {q : Qsort} {tables : Tables} (built : Built q file.toElfFile tables) (there : file.sections[m]? = some sec)
    (addr : UInt64) : if addr < sec.addr then elfFindSymbolByAddress q file.toElfFile tables m addr = (tables,.ok none)
      else elfFindSymbolByAddress q file.toElfFile tables m addr =
        (Function.update tables m (q.sort (symbols file.toElfFile m sec)),
          search file.toElfFile m sec (q.sort (symbols file.toElfFile m sec)) addr) := by
  simp only [elfFindSymbolByAddress,there]
  split
  · rfl
  · split
    · rw [create_complete q]
    · rename_i filled
      obtain ⟨sec',there',same⟩ := (built m).resolve_left filled
      cases there.symm.trans there'
      rw [← same,Function.update_eq_self]

theorem find_built {q : Qsort} {tables : Tables} (built : Built q file.toElfFile tables) (m : Nat) (addr : UInt64) :
    Built q file.toElfFile (elfFindSymbolByAddress q file.toElfFile tables m addr).1 := by
  cases there : file.sections[m]? with
  | none =>
    simp only [elfFindSymbolByAddress,there]
    exact built
  | some sec =>
    have cases_ := find_cases built there addr
    split at cases_
    · rw [cases_]
      exact built
    · rw [cases_]
      intro m'
      dsimp only
      by_cases same : m' = m
      · subst same
        exact .inr ⟨sec,there,Function.update_self ..⟩
      · rw [Function.update_of_ne same]
        exact built m'

theorem visited_built (q : Qsort) (file : OpenFile) (lookups : List (Nat × UInt64)) :
    Built q file.toElfFile (visited q file.toElfFile lookups) := by
  suffices runs : ∀ tables, Built q file.toElfFile tables → Built q file.toElfFile
      (lookups.foldl (fun tables look => (elfFindSymbolByAddress q file.toElfFile tables look.1 look.2).1) tables) from
    runs _ fun _ => .inl rfl
  induction lookups with
  | nil => exact fun tables built => built
  | cons look lookups ih => exact fun tables built => ih _ (find_built built look.1 look.2)

end Building

section Walks

variable {file : ElfFile} {m : Nat} {tables : Tables}

/-- Every place of an index can be unpacked, and is of its section. -/
def Owned (file : ElfFile) (m : Nat) (table : List SecSymbol) : Prop := ∀ k e, table[k]? = some e →
  ∃ sym, unpackAt file table k = .ok (some sym) ∧ Stands file m sym e ∧ sym.addrIndex = k

theorem walk_next (owned : Owned file m (tables m)) (rounds : Nat) : ∀ {sym : ElfSymbolInfo} {k : Nat}, sym.section = some m →
    sym.addrIndex = k → (tables m).length - k ≤ rounds → ∃ after, walk (elfNextSymbolByAddress file tables) rounds sym = .ok after ∧
      List.Forall₂ (Stands file m) after ((tables m).drop (k + 1)) := by
  induction rounds with
  | zero =>
    intro sym k _ _ short
    rw [List.drop_eq_nil_of_le (by omega)]
    exact ⟨[],rfl,.nil⟩
  | succ rounds ih =>
    intro sym k here place short
    by_cases more : k + 1 < (tables m).length
    · obtain ⟨next,unpacked,stands,place'⟩ := owned (k + 1) _ (List.getElem?_eq_getElem more)
      obtain ⟨after,run,all⟩ := ih stands.1 place' (by omega)
      have step : elfNextSymbolByAddress file tables sym = .ok (some next) := by
        simp only [elfNextSymbolByAddress,here,place,if_pos more,unpacked]
      refine ⟨next :: after,?_,?_⟩
      · rw [walk,step]
        change (walk (elfNextSymbolByAddress file tables) rounds next >>= fun rest => .ok (next :: rest)) = _
        rw [run]
        rfl
      · rw [List.drop_eq_getElem_cons more]
        exact .cons stands all
    · have step : elfNextSymbolByAddress file tables sym = .ok none := by
        simp only [elfNextSymbolByAddress,here,place,if_neg more]
      refine ⟨[],?_,?_⟩
      · rw [walk,step]
        rfl
      · rw [List.drop_eq_nil_of_le (by omega)]
        exact .nil

theorem walk_prev (owned : Owned file m (tables m)) (rounds : Nat) : ∀ {sym : ElfSymbolInfo} {k : Nat}, sym.section = some m →
    sym.addrIndex = k → k ≤ rounds → k ≤ (tables m).length → ∃ before,
      walk (elfPrevSymbolByAddress file tables) rounds sym = .ok before ∧
      List.Forall₂ (Stands file m) before ((tables m).take k).reverse := by
  induction rounds with
  | zero =>
    intro sym k _ _ short _
    obtain rfl : k = 0 := by omega
    exact ⟨[],rfl,.nil⟩
  | succ rounds ih =>
    intro sym k here place short inside
    cases k with
    | zero =>
      have step : elfPrevSymbolByAddress file tables sym = .ok none := by
        simp [elfPrevSymbolByAddress,here,place]
      refine ⟨[],?_,.nil⟩
      rw [walk,step]
      rfl
    | succ k =>
      have there : k < (tables m).length := by omega
      obtain ⟨prev,unpacked,stands,place'⟩ := owned k _ (List.getElem?_eq_getElem there)
      obtain ⟨before,run,all⟩ := ih stands.1 place' (by omega) (by omega)
      have step : elfPrevSymbolByAddress file tables sym = .ok (some prev) := by
        simp [elfPrevSymbolByAddress,here,place,unpacked]
      refine ⟨prev :: before,?_,?_⟩
      · rw [walk,step]
        change (walk (elfPrevSymbolByAddress file tables) rounds prev >>= fun rest => .ok (prev :: rest)) = _
        rw [run]
        rfl
      · rw [← List.take_append_getElem there,List.reverse_append]
        exact .cons stands all

/-- From a place of the index the steps lead to all others. -/
theorem enumerates {symbols : List SecSymbol} (owned : Owned file m (tables m)) (perm : (tables m).Perm symbols)
    (sorted : (tables m).Pairwise fun x y => (sectionSymbolComparator x y).isLE) {sym : ElfSymbolInfo}
    (there : (tables m)[k]? = some e) (stands : Stands file m sym e) (place : sym.addrIndex = k) :
    Enumerates file tables m symbols sym := by
  obtain ⟨inside,same⟩ := List.getElem?_eq_some_iff.mp there
  have length := perm.length_eq
  obtain ⟨before,back,left⟩ := walk_prev owned (symbols.length + 1) stands.1 place (by omega) (by omega)
  obtain ⟨after,forth,right⟩ := walk_next owned (symbols.length + 1) stands.1 place (by omega)
  refine ⟨before,after,tables m,back,forth,perm,sorted,?_⟩
  have whole : tables m = (tables m).take k ++ e :: (tables m).drop (k + 1) := by
    rw [← same,List.getElem_cons_drop,List.take_append_drop]
  rw [whole]
  refine List.rel_append ?_ (.cons stands right)
  rw [← List.reverse_reverse ((tables m).take k)]
  exact List.rel_reverse left

end Walks

section Lookups

variable {q : Qsort} {file : OpenFile} {m : Nat} {sec : Section} {addr : UInt64}

/-- The index of a section -/
def index (q : Qsort) (file : ElfFile) (m : Nat) (sec : Section) : List SecSymbol := q.sort (symbols file m sec)

theorem index_perm : (index q file.toElfFile m sec).Perm (symbols file.toElfFile m sec) := q.perm _

theorem index_sorted : (index q file.toElfFile m sec).Pairwise fun x y => (sectionSymbolComparator x y).isLE := q.sorted _

theorem Orderly.bounded (orderly : Orderly file.toElfFile m sec) : Bounded sec (index q file.toElfFile m sec) := by
  refine ⟨index_sorted,fun e member => orderly.high e (index_perm.mem_iff.mp member),fun filled => orderly.ends fun empty => ?_⟩
  exact filled (List.length_eq_zero_iff.mp (by rw [index_perm.length_eq,empty]; rfl))

theorem index_owned (orderly : Orderly file.toElfFile m sec) (some_ : ∃ e ∈ symbols file.toElfFile m sec, e.address.toNat < sec.limit) :
    Owned file.toElfFile m (index q file.toElfFile m sec) := by
  intro k e here
  have member := index_perm.mem_iff.mp (List.mem_of_getElem? here)
  obtain ⟨tbl,sym,there,unpacked⟩ := symbol_unpacks member
  have owned := orderly.owned some_ e member tbl there
  obtain ⟨_,place,sectioned⟩ := unpack_ok unpacked
  refine ⟨{ sym with addrIndex := k },?_,⟨sectioned.trans owned,tbl,there,?_⟩,rfl⟩
  · simp only [unpackAt,here,there,unpacked]
    rfl
  · rw [unpacked]
    congr 1
    rw [← place]

/-- Where a symbol lies below an address inside the section, there is one that is sought. -/
theorem at_of_below (q : Qsort) (below : ∃ e ∈ symbols file.toElfFile m sec, e.address ≤ addr) (inside : addr.toNat < sec.limit) :
    ∃ e, At (symbols file.toElfFile m sec) sec.limit addr e := by
  obtain ⟨e,member,le⟩ := below
  obtain ⟨k,e',here,last,behind⟩ := last_place (p := fun x => x.address ≤ addr) (index q file.toElfFile m sec)
    ⟨e,index_perm.mem_iff.mpr member,le⟩
  have place : Place (index q file.toElfFile m sec) sec.limit addr k e' :=
    ⟨here,last,fun next after => UInt64.not_le.mp (behind (k + 1) next (Nat.lt_succ_self k) after),fun _ => inside⟩
  exact ⟨e',place.at index_sorted index_perm⟩

theorem search_some {file : ElfFile} {table : List SecSymbol} {sym : ElfSymbolInfo}
    (found : Bisection.bisect (probe sec table addr) table.length 0 table.length = some k) (here : table[k]? = some e)
    (next : e.address ≤ nextAddress sec table k) (unpacked : unpackAt file table k = .ok (some sym)) (owned : sym.section = some m) :
    search file m sec table addr = .ok (some sym) := by
  have first : ∀ info ∈ table[k]?, info.address ≤ nextAddress sec table k := by
    intro info there
    rw [here] at there
    cases there
    exact next
  have second : ∀ info ∈ some sym, info.section = some m := by
    intro info there
    cases there
    exact owned
  simp only [search,found,check,if_pos first,unpacked]
  exact congrArg (· >>= fun _ => Except.ok (some sym)) (if_pos second)

theorem search_none {file : ElfFile} {table : List SecSymbol}
    (missed : Bisection.bisect (probe sec table addr) table.length 0 table.length = none) :
    search file m sec table addr = .ok none := by
  simp only [search,missed]

section

variable (there : file.sections[m]? = some sec)

include there

theorem Orderly.exact (orderly : Orderly file.toElfFile m sec) (lookups : List (Nat × UInt64))
    (addr : UInt64) :
    Finds file.toElfFile m sec addr (elfFindSymbolByAddress q file.toElfFile (visited q file.toElfFile lookups) m addr) := by
  have find := find_cases (visited_built q file lookups) there addr
  split at find
  · rename_i before
    rw [find]
    intro e found
    have low := orderly.low e found.mem
    have below := found.below
    rw [UInt64.lt_iff_toNat_lt] at before
    rw [UInt64.le_iff_toNat_le] at low below
    omega
  · rw [find]
    have bounded : Bounded sec (index q file.toElfFile m sec) := orderly.bounded
    rcases bounded.places addr with ⟨k,e,place,result⟩ | ⟨nowhere,result⟩
    · obtain ⟨here,below,next,inside⟩ := id place
      have member := index_perm.mem_iff.mp (List.mem_of_getElem? here)
      -- the symbol is in front of the end, or of the next symbol, which is in front of the end
      have front : e.address.toNat < sec.limit := by
        rw [UInt64.le_iff_toNat_le] at below
        cases after : (index q file.toElfFile m sec)[k + 1]? with
        | none =>
          have := inside after
          omega
        | some e' =>
          have above := next e' after
          have high := bounded.high e' (List.mem_of_getElem? after)
          rw [UInt64.lt_iff_toNat_lt] at above
          omega
      have owned := index_owned (q := q) orderly ⟨e,member,front⟩
      obtain ⟨sym,unpacked,stands,number⟩ := owned k e here
      have found := search_some result here (bounded.next here) unpacked stands.1
      simp only [Finds,show q.sort (symbols file.toElfFile m sec) = index q file.toElfFile m sec from rfl,found]
      refine ⟨⟨e,place.at index_sorted index_perm,stands⟩,enumerates (e := e) (k := k) ?_ ?_ ?_ ?_ stands number⟩
      · rw [Function.update_self]
        exact owned
      · rw [Function.update_self]
        exact index_perm
      · rw [Function.update_self]
        exact index_sorted
      · rw [Function.update_self]
        exact here
    · simp only [Finds,show q.sort (symbols file.toElfFile m sec) = index q file.toElfFile m sec from rfl,search_none result]
      intro e found
      obtain ⟨k,e',place⟩ := found.place (index_sorted (q := q)) index_perm
      exact nowhere k e' place

/-- What an exact section shows of its searches -/
theorem Exact.finds (exact : Exact q file.toElfFile m) (above : sec.addr ≤ addr) :
    ∃ tables, Finds file.toElfFile m sec addr (tables,search file.toElfFile m sec (index q file.toElfFile m sec) addr) := by
  have find := find_cases (visited_built q file []) there addr
  rw [if_neg (UInt64.not_lt.mpr above)] at find
  have finds := exact sec there [] addr
  rw [find] at finds
  exact ⟨_,finds⟩

theorem Exact.low (exact : Exact q file.toElfFile m) :
    ∀ e ∈ symbols file.toElfFile m sec, sec.addr ≤ e.address := by
  intro e member
  by_contra below
  have before := UInt64.not_le.mp below
  have find := find_cases (visited_built q file []) there e.address
  rw [if_pos before] at find
  have finds := exact sec there [] e.address
  rw [find] at finds
  rw [UInt64.lt_iff_toNat_lt] at before
  obtain ⟨e',found⟩ := at_of_below q ⟨e,member,UInt64.le_refl e.address⟩ (show _ < sec.addr.toNat + sec.size.toNat by omega)
  exact finds e' found

/-- The highest address -/
def top : UInt64 := UInt64.ofNat (2 ^ 64 - 1)

omit there in
theorem le_top (a : UInt64) : a ≤ top := by
  have := a.toNat_lt
  rw [UInt64.le_iff_toNat_le,show top.toNat = 2 ^ 64 - 1 from rfl]
  omega

omit there in
/-- A search for the highest address fails at the last symbol, or finds none. -/
theorem search_top (file : OpenFile) (m : Nat) (sec : Section) {table : List SecSymbol} {last : SecSymbol}
    (sorted : table.Pairwise fun x y => (sectionSymbolComparator x y).isLE)
    (ends : table.getLast? = some last) : if sec.addr + sec.size < last.address then
        search file.toElfFile m sec table top = .error .assertion
      else search file.toElfFile m sec table top = .ok none := by
  have filled : 0 < table.length := List.length_pos_of_mem (List.mem_of_getLast? ends)
  rw [List.getLast?_eq_getElem?] at ends
  have passed {k : Nat} (before : k + 1 < table.length) : probe sec table top k = .lt := by
    obtain ⟨e,here⟩ : ∃ e, table[k]? = some e := stored (by omega)
    obtain ⟨next,after⟩ := stored before
    have le := sorted_address sorted here after (Nat.le_succ k)
    simp only [probe,here,nextAddress_some after]
    rw [if_neg (UInt64.not_lt.mpr (le_top _)),if_neg (UInt64.not_lt.mpr (UInt64.le_iff_toNat_le.mpr le)),if_pos (le_top _)]
  have after : table[table.length - 1 + 1]? = none := List.getElem?_eq_none (by omega)
  have final : probe sec table top (table.length - 1) = if sec.addr + sec.size < last.address then .eq else .lt := by
    simp only [probe,ends,nextAddress_none after]
    rw [if_neg (UInt64.not_lt.mpr (le_top _)),if_pos (le_top _)]
  have only {k : Nat} (found : Bisection.bisect (probe sec table top) table.length 0 table.length = some k) :
      k = table.length - 1 ∧ probe sec table top (table.length - 1) = .eq := by
    obtain ⟨_,inside,there⟩ := Bisection.bisect_some found
    have here : k = table.length - 1 := by
      by_contra other
      rw [passed (by omega)] at there
      cases there
    exact ⟨here,here ▸ there⟩
  split
  · rename_i overrun
    rw [if_pos overrun] at final
    have found : Bisection.bisect (probe sec table top) table.length 0 table.length = some (table.length - 1) := by
      cases result : Bisection.bisect (probe sec table top) table.length 0 table.length with
      | some k => rw [(only result).1]
      | none =>
        refine absurd final (Bisection.bisect_none (fun i j le => ⟨fun less => ?_,fun more => ?_⟩) (by omega) result
          (Nat.zero_le _) (by omega))
        · rcases Nat.lt_trichotomy j (table.length - 1) with before | rfl | behind
          · exact passed (by omega)
          · rw [final] at less
            cases less
          · rw [probe_none (List.getElem?_eq_none (by omega))] at less
            cases less
        · rcases Nat.lt_trichotomy i (table.length - 1) with before | rfl | behind
          · rw [passed (by omega)] at more
            cases more
          · rw [final] at more
            cases more
          · exact probe_none (List.getElem?_eq_none (by omega))
    have fails : ¬∀ info ∈ table[table.length - 1]?, info.address ≤ nextAddress sec table (table.length - 1) := by
      intro all
      have le := all last ends
      rw [nextAddress_none after] at le
      exact absurd overrun (UInt64.not_lt.mpr le)
    simp only [search,found,check,if_neg fails]
    rfl
  · rename_i fits
    rw [if_neg fits] at final
    have missed : Bisection.bisect (probe sec table top) table.length 0 table.length = none := by
      cases result : Bisection.bisect (probe sec table top) table.length 0 table.length with
      | none => rfl
      | some k =>
        have there := (only result).2
        rw [final] at there
        cases there
    exact search_none missed

theorem Exact.high (exact : Exact q file.toElfFile m)
    (filled : symbols file.toElfFile m sec ≠ []) : sec.limit < 2 ^ 64 ∧ ∀ e ∈ symbols file.toElfFile m sec, e.address.toNat ≤ sec.limit := by
  have listed : index q file.toElfFile m sec ≠ [] := fun empty =>
    filled (List.length_eq_zero_iff.mp (by rw [← (index_perm (q := q)).length_eq,empty]; rfl))
  obtain ⟨tables,finds⟩ := exact.finds there (le_top sec.addr)
  have ends := List.getLast?_eq_some_getLast listed
  have result := search_top file m sec index_sorted ends
  split at result
  · rw [result] at finds
    cases finds
  · rename_i fits
    rw [result] at finds
    have bounded : sec.limit < 2 ^ 64 := by
      by_contra wraps
      have inside : top.toNat < sec.limit := by
        rw [show top.toNat = 2 ^ 64 - 1 from rfl]
        omega
      obtain ⟨e,member⟩ := List.exists_mem_of_ne_nil _ filled
      obtain ⟨e',found⟩ := at_of_below q ⟨e,member,le_top e.address⟩ inside
      exact finds e' found
    refine ⟨bounded,fun e member => ?_⟩
    obtain ⟨k,here⟩ := List.getElem?_of_mem ((index_perm (q := q)).mem_iff.mpr member)
    rw [List.getLast?_eq_getElem?] at ends
    have inside := (List.getElem?_eq_some_iff.mp here).1
    have le := sorted_address index_sorted here ends (by omega)
    have last := UInt64.le_iff_toNat_le.mp (UInt64.not_lt.mp fits)
    rw [end_toNat bounded] at last
    exact Nat.le_trans le last

omit there in
theorem forall₂_right {α β : Type} {r : α → β → Prop} {xs : List α} {ys : List β} (all : List.Forall₂ r xs ys) {y : β} (member : y ∈ ys) :
    ∃ x, r x y := by
  induction all with
  | nil => cases member
  | @cons x y' xs ys first _ ih =>
    rcases List.mem_cons.mp member with rfl | later
    · exact ⟨x,first⟩
    · exact ih later

theorem Exact.owned (exact : Exact q file.toElfFile m)
    (front : ∃ e ∈ symbols file.toElfFile m sec, e.address.toNat < sec.limit) : ∀ e ∈ symbols file.toElfFile m sec, ∀ tbl,
    file.sections[e.tbl]? = some tbl → file.toElfFile.sectionOf (tbl.symAt (tbl.entsize * e.index)).shndx = some m := by
  obtain ⟨e0,member0,inside⟩ := front
  obtain ⟨e1,sought⟩ := at_of_below q ⟨e0,member0,UInt64.le_refl e0.address⟩ inside
  obtain ⟨tables,finds⟩ := exact.finds there (exact.low there e0 member0)
  intro e member tbl stored
  cases result : search file.toElfFile m sec (index q file.toElfFile m sec) e0.address with
  | error stop =>
    rw [result] at finds
    cases finds
  | ok found =>
    rw [result] at finds
    cases found with
    | none => exact absurd sought (finds e1)
    | some sym =>
      obtain ⟨_,before,after,order,_,_,perm,_,all⟩ := finds
      obtain ⟨sym',sectioned,tbl',stored',unpacked⟩ := forall₂_right all (perm.mem_iff.mpr member)
      cases stored.symm.trans stored'
      exact (unpack_ok unpacked).2.2.symm.trans sectioned

theorem Exact.orderly (exact : Exact q file.toElfFile m) : Orderly file.toElfFile m sec where
  low := exact.low there
  high e member := (exact.high there (List.ne_nil_of_mem member)).2 e member
  ends filled := (exact.high there filled).1
  owned := exact.owned there

end

/-- A sort that is stable -/
def mergeQsort : Qsort where
  sort l := l.mergeSort fun x y => (sectionSymbolComparator x y).isLE
  perm l := List.mergeSort_perm l _
  sorted l := ((Sorting.sorts_compare SecSymbol.index).after fun x => x.address.toNat).sorted l

def noSymbol : ElfSym := ⟨0,0,0,0,0,0,0⟩

def shortText : Section := ⟨none,0x1000,0x10,0,0,0,false,none,fun _ => noSymbol,fun _ => []⟩

/-- A table with a function behind the end of that section, as linker scripts define them -/
def beyondTable : Section :=
  ⟨none,0,48,0,24,2,true,none,fun pos => if pos = 24 then ⟨0,1,1,2,0x1020,0,0⟩ else noSymbol,fun _ => []⟩

def beyond : OpenFile where
  elf64 := true
  arm := false
  rel := false
  sections := [⟨none,0,0,0,0,0,false,none,fun _ => noSymbol,fun _ => []⟩,shortText,beyondTable]
  unpacks := by
    intro t tbl above stored n below
    match t with
    | 1 =>
      cases stored
      cases below
    | 2 =>
      cases stored
      match n with
      | 0 => exact ⟨_,rfl⟩
      | 1 => exact ⟨_,rfl⟩
    | t+3 => cases stored

end Lookups

end Tcf.ElfSymbols
