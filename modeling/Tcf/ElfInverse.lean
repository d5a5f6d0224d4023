import Tcf.ElfAddresses
import Mathlib.Data.BitVec
import Mathlib.Tactic.Abel

/-! Whether the run-time address of a link-time address that was found at an address is that address.
Both loops take the first region that has an answer: the one looks at the regions which cover the address,
the other at all regions of the file. -/
namespace Tcf.Elf

/-- A region has no run-time address for a link-time address. -/
def Silent (r : Region) (f : ElfFile) (sec : Option Section) (addr : Addr) : Prop :=
  match r.sectName, sec with
  | none, _ => ∀ p ∈ f.pheaders, claims f r addr p = false
  | some name, some s => ∃ own, s.name = some own ∧ own ≠ name
  | some name, none => f.type ≠ .other → ∀ s ∈ f.sections.tail, s.addr ≤ addr → addr < s.addr + s.size → s.name ≠ some name

theorem silent_iff (r : Region) (f : ElfFile) (sec : Option Section) (addr : Addr) :
    elfRunTimeAddressInRegion r f sec addr = .ok none ↔ Silent r f sec addr := by
  unfold elfRunTimeAddressInRegion Silent
  cases named : r.sectName with
  | none => simp
  | some name =>
    cases sec with
    | some s => cases own : s.name <;> simp [hasName,own]
    | none => by_cases other : f.type = .other <;> simp [other]

theorem runThrough_silent (w : World) (f : FileId) (sec : Option Section) (addr : Addr) {front : List Region}
    (silent : ∀ x ∈ front, w.sameFile f x = true → Silent x (w.elf f) sec addr) (rest : List Region) :
    runThrough w f sec addr (front ++ rest) = runThrough w f sec addr rest := by
  induction front with
  | nil => rfl
  | cons x front ih =>
    have later := ih fun y member => silent y (List.mem_cons_of_mem _ member)
    by_cases same : w.sameFile f x
    · have nothing := (silent_iff _ _ _ _).mpr (silent x List.mem_cons_self same)
      simp [runThrough,same,nothing,later]
    · simp [runThrough,same,later]

variable {w : World} {sec : Option Section} {addr : Addr} {r : Region}

/-- The region that answers is the first of the file that is not silent. -/
theorem runThrough_some {f : FileId} {regions : List Region}
    {rt : Addr} (found : runThrough w f sec addr regions = .ok (some (r,rt))) :
    ∃ front back, regions = front ++ r :: back ∧ w.sameFile f r = true ∧
      elfRunTimeAddressInRegion r (w.elf f) sec addr = .ok (some rt) ∧
      ∀ x ∈ front, w.sameFile f x = true → Silent x (w.elf f) sec addr := by
  induction regions with
  | nil => simp [runThrough] at found
  | cons x regions ih =>
    by_cases same : w.sameFile f x
    · simp only [runThrough,same,if_true] at found
      obtain ⟨answer,here,rest⟩ := Code.bind_ok_iff.mp found
      cases answer with
      | some other =>
        simp at rest
        obtain ⟨rfl,rfl⟩ := rest
        exact ⟨[],regions,rfl,same,here,by simp⟩
      | none =>
        obtain ⟨front,back,split,own,answered,silent⟩ := ih rest
        refine ⟨x :: front,back,by simp [split],own,answered,?_⟩
        intro y member file
        rcases List.mem_cons.mp member with rfl | member
        · exact (silent_iff _ _ _ _).mp here
        · exact silent y member file
    · simp only [runThrough,same] at found
      obtain ⟨front,back,split,own,answered,silent⟩ := ih found
      refine ⟨x :: front,back,by simp [split],own,answered,?_⟩
      intro y member file
      rcases List.mem_cons.mp member with rfl | member
      · exact absurd file same
      · exact silent y member file

theorem runThrough_none {f : FileId} {regions : List Region}
    (found : runThrough w f sec addr regions = .ok none) :
    ∀ x ∈ regions, w.sameFile f x = true → Silent x (w.elf f) sec addr := by
  induction regions with
  | nil => simp
  | cons x regions ih =>
    by_cases same : w.sameFile f x
    · simp only [runThrough,same,if_true] at found
      obtain ⟨answer,here,rest⟩ := Code.bind_ok_iff.mp found
      cases answer with
      | some other => simp at rest
      | none =>
        intro y member file
        rcases List.mem_cons.mp member with rfl | member
        · exact (silent_iff _ _ _ _).mp here
        · exact ih rest y member file
    · simp only [runThrough,same] at found
      intro y member file
      rcases List.mem_cons.mp member with rfl | member
      · exact absurd file same
      · exact ih found y member file

theorem linkLoop_some {regions : List Region} {target : Target}
    (found : linkLoop w addr regions = .ok (some target)) :
    ∃ front r back, regions = front ++ r :: back ∧ linkInRegion w r addr = .ok (some target) ∧ covers r addr = true ∧
      ∀ x ∈ front, covers x addr = true ∧ linkInRegion w x addr = .ok none := by
  induction regions with
  | nil => simp [linkLoop] at found
  | cons x regions ih =>
    simp only [linkLoop,Code.require_bind_ok] at found
    obtain ⟨low,high,found⟩ := found
    have inside : covers x addr = true := by simp [covers,low,high]
    obtain ⟨answer,here,rest⟩ := Code.bind_ok_iff.mp found
    cases answer with
    | some other =>
      simp at rest
      subst other
      exact ⟨[],x,regions,rfl,here,inside,by simp⟩
    | none =>
      obtain ⟨front,r,back,split,linked,covered,silent⟩ := ih rest
      refine ⟨x :: front,r,back,by simp [split],linked,covered,?_⟩
      intro y member
      rcases List.mem_cons.mp member with rfl | member
      · exact ⟨inside,here⟩
      · exact silent y member

theorem filter_map_same {α β : Type} {l : List α} {f : α → β} {p q : α → Bool} {c : β → Bool}
    (same : ∀ a ∈ l, c (f a) = true → p a = q a) : ((l.filter p).map f).filter c = ((l.filter q).map f).filter c := by
  simp only [List.filter_map,List.filter_filter]
  apply congrArg
  apply List.filter_congr
  intro a member
  by_cases kept : c (f a)
  · simp [kept,same a member kept]
  · simp [kept]

theorem covers_iff (r : Region) (addr : Addr) : covers r addr = true ↔ r.addr ≤ addr ∧ addr < r.addr + r.size := by
  simp [covers]

theorem top_greatest (addr : Addr) : addr ≤ BitVec.allOnes 64 := by
  simp only [BitVec.le_def,BitVec.toNat_allOnes]
  have bound := addr.isLt
  omega

theorem positive_of_less {a b : Addr} (less : a < b) : 0 < b := by bv_omega

theorem segment_regions_covers (f : ElfFile) (addr : Addr) :
    ((f.pheaders.filter fun p => p.load && p.address ≤ addr && addr < p.address + p.memSize).map (segmentRegion f)).filter
        (covers · addr) =
      ((f.pheaders.filter fun p => p.load && p.address ≤ BitVec.allOnes 64 && 0 < p.address + p.memSize).map
        (segmentRegion f)).filter (covers · addr) := by
  apply filter_map_same
  intro p _ inside
  obtain ⟨low,high⟩ := (covers_iff _ _).mp inside
  simp only [segmentRegion,regionOf] at low high
  simp only [low,high,top_greatest,positive_of_less high]

theorem module_regions_covers (f : ElfFile) (start addr : Addr) :
    (moduleRegions f start addr addr).filter (covers · addr) =
      (moduleRegions f start 0 (BitVec.allOnes 64)).filter (covers · addr) := by
  apply filter_map_same
  intro p _ inside
  obtain ⟨low,high⟩ := (covers_iff _ _).mp inside
  simp only [moduleRegion,regionOf] at low high
  have last : addr ≤ p.address + p.memSize - 1 + baseAddr f start := by bv_omega
  have first : 0 ≤ p.address + p.memSize - 1 + baseAddr f start := by bv_omega
  simp only [low,last,first,top_greatest]

theorem section_regions_covers (f : ElfFile) (r : Region) (addr : Addr) :
    ((f.sections.filter fun s => s.name ≠ none && s.name = r.sectName && addr < r.addr + s.size).map
        (sectionRegion f r)).filter (covers · addr) =
      ((f.sections.filter fun s => s.name ≠ none && s.name = r.sectName && 0 < r.addr + s.size).map
        (sectionRegion f r)).filter (covers · addr) := by
  apply filter_map_same
  intro s _ inside
  obtain ⟨low,high⟩ := (covers_iff _ _).mp inside
  simp only [sectionRegion,regionOf] at low high
  simp only [high,positive_of_less high]

theorem section_regions_above (f : ElfFile) (r : Region) (sections : List Section) (above : ¬r.addr ≤ addr) :
    (sections.map (sectionRegion f r)).filter (covers · addr) = [] := by
  apply List.filter_eq_nil_iff.mpr
  intro x member
  obtain ⟨s,_,rfl⟩ := List.mem_map.mp member
  simp [covers_iff,sectionRegion,regionOf,above]

theorem alone_covers {found : Prop} [Decidable found] (finds : covers r addr = true → found) :
    (if found then [r] else []).filter (covers · addr) = if covers r addr then [r] else [] := by
  by_cases inside : covers r addr
  · simp [finds inside,inside]
  · by_cases other : found <;> simp [inside,other]

/-- The regions that cover an address are found by a search for the address. -/
theorem regionsFor_covers (w : World) (addr : Addr) (r : Region) :
    (regionsFor w addr addr r).filter (covers · addr) = (regionsFor w 0 (BitVec.allOnes 64) r).filter (covers · addr) := by
  simp only [regionsFor,top_greatest,true_and]
  split
  · rfl
  split
  · split
    · rfl
    · simpa only [top_greatest] using segment_regions_covers _ addr
  split
  · split
    · split
      · rfl
      · exact module_regions_covers _ _ _
    · rfl
  have near : covers r addr = true → r.addr ≤ addr ∧ addr < r.addr + r.size := (covers_iff r addr).mp
  have far : covers r addr = true → 0 < r.addr + r.size := fun inside => positive_of_less (near inside).2
  by_cases start : r.addr ≤ addr
  · simp only [start,true_and] at near ⊢
    split
    · split
      · rfl
      · exact section_regions_covers _ _ _
    · exact (alone_covers near).trans (alone_covers far).symm
  · simp only [start,false_and,if_false]
    split
    · split
      · rfl
      · simp [section_regions_above _ _ _ start]
    · have outside : covers r addr = false := by simp [covers,start]
      exact (by simp [outside] : _ = _).trans (alone_covers far).symm

theorem getMap_covers (w : World) (addr : Addr) :
    (elfGetMap w addr addr).filter (covers · addr) = (fullMap w).filter (covers · addr) := by
  simp only [fullMap,elfGetMap,List.filter_flatMap]
  apply congrArg (List.flatMap · w.regions)
  funext r
  exact regionsFor_covers w addr r

/-- The link-time address that a segment has at a run-time address of the region. -/
def linkAddr (r : Region) (p : PHeader) (addr : Addr) : Addr := addr - r.addr + r.fileOffs - p.offset + p.address

theorem image_linkAddr (r : Region) (p : PHeader) (addr : Addr) : image r p (linkAddr r p addr) = addr := by
  simp only [image,linkAddr]
  abel

/-- The end of the segment is an address, and an offset. -/
structure Short (p : PHeader) : Prop where
  memory : p.address.toNat + p.memSize.toNat < 2 ^ 64
  file : p.offset.toNat + p.memSize.toNat < 2 ^ 64

theorem linkedAt_iff (p : PHeader) (addr : Addr) :
    linkedAt p addr = true ↔ p.address ≤ addr ∧ addr < p.address + p.memSize := by simp [linkedAt]

theorem holds_iff (f : ElfFile) (r : Region) (addr : Addr) (p : PHeader) :
    holds f r addr p = true ↔ isPHeaderRegion f p r = true ∧ p.offset ≤ addr - r.addr + r.fileOffs ∧
      addr - r.addr + r.fileOffs < p.offset + p.memSize := by simp [holds,and_assoc]

theorem claims_iff (f : ElfFile) (r : Region) (addr : Addr) (p : PHeader) :
    claims f r addr p = true ↔ isPHeaderRegion f p r = true ∧ linkedAt p addr = true ∧ covers r (image r p addr) = true := by
  simp [claims,and_assoc]

variable {f : ElfFile} {p : PHeader}

theorem claims_of_holds (short : Short p)
    (held : holds f r addr p = true) (inside : covers r addr = true) : claims f r (linkAddr r p addr) p = true := by
  obtain ⟨kind,low,high⟩ := (holds_iff _ _ _ _).mp held
  have memory := short.memory
  have linked : linkedAt p (linkAddr r p addr) = true := by
    apply (linkedAt_iff _ _).mpr
    simp only [linkAddr]
    generalize addr - r.addr + r.fileOffs = offset at low high
    constructor <;> bv_omega
  exact (claims_iff _ _ _ _).mpr ⟨kind,linked,by rwa [image_linkAddr]⟩

theorem holds_of_claims {link : Addr} (short : Short p)
    (claimed : claims f r link p = true) (equal : image r p link = addr) : holds f r addr p = true := by
  obtain ⟨kind,linked,-⟩ := (claims_iff _ _ _ _).mp claimed
  obtain ⟨low,high⟩ := (linkedAt_iff _ _).mp linked
  have offset : addr - r.addr + r.fileOffs = link - p.address + p.offset := by
    simp only [← equal,image]
    abel
  have file := short.file
  apply (holds_iff _ _ _ _).mpr
  rw [offset]
  exact ⟨kind,by bv_omega,by bv_omega⟩

/-- A region that `elf_map_to_link_time_address` takes as it is. -/
def Flat (r : Region) (f : ElfFile) : Prop := r.sectName = none ∧ f.pheaders = [] ∧ f.type = .exec

theorem findNamed_some {name : Name} {sections : List Section} {s : Section}
    (found : findNamed name sections = .ok (some s)) : s ∈ sections ∧ s.name = some name := by
  induction sections with
  | nil => simp [findNamed] at found
  | cons x sections ih =>
    cases own : x.name with
    | none => simp [findNamed,hasName,own] at found
    | some n =>
      by_cases equal : n = name
      · simp [findNamed,hasName,own,equal] at found
        subst found
        exact ⟨List.mem_cons_self,by simp [own,equal]⟩
      · simp [findNamed,hasName,own,equal] at found
        exact ⟨List.mem_cons_of_mem _ (ih found).1,(ih found).2⟩

theorem findNamed_none {name : Name} {sections : List Section} (found : findNamed name sections = .ok none) :
    ∀ s ∈ sections, s.name ≠ some name := by
  induction sections with
  | nil => simp
  | cons x sections ih =>
    cases own : x.name with
    | none => simp [findNamed,hasName,own] at found
    | some n =>
      by_cases equal : n = name
      · simp [findNamed,hasName,own,equal] at found
      · simp [findNamed,hasName,own,equal] at found
        intro s member
        rcases List.mem_cons.mp member with rfl | member
        · simp [own,equal]
        · exact ih found s member

variable {t : Target}

/-- How a region gives a link-time address. -/
theorem linkInRegion_some (found : linkInRegion w r addr = .ok (some t)) :
    w.openFile r = some t.file ∧
      ((Flat r (w.elf t.file) ∧ t.sec = findSectionByAddress (w.elf t.file) t.addr ∧ t.addr = addr) ∨
        (r.sectName = none ∧ ∃ p, (w.elf t.file).pheaders.find? (holds (w.elf t.file) r addr) = some p ∧
          t.sec = findSectionByAddress (w.elf t.file) t.addr ∧ t.addr = linkAddr r p addr) ∨
        ∃ name s, r.sectName = some name ∧ t.sec = some s ∧ s ∈ (w.elf t.file).sections.tail ∧ s.name = some name ∧
          t.addr = addr - r.addr + s.addr) := by
  unfold linkInRegion at found
  cases opened : w.openFile r with
  | none => simp [opened] at found
  | some id =>
    simp only [opened] at found
    cases named : r.sectName with
    | none =>
      simp only [named] at found
      split at found
      · rename_i plain
        simp at found
        subst found
        exact ⟨rfl,.inl ⟨⟨named,plain⟩,rfl,rfl⟩⟩
      · simp at found
        obtain ⟨p,first,rfl⟩ := found
        exact ⟨rfl,.inr (.inl ⟨rfl,p,first,rfl,rfl⟩)⟩
    | some name =>
      simp only [named] at found
      obtain ⟨s,search,result⟩ := Code.bind_ok_iff.mp found
      cases s with
      | none => simp at result
      | some s =>
        simp at result
        subst result
        obtain ⟨member,own⟩ := findNamed_some search
        exact ⟨rfl,.inr (.inr ⟨name,s,rfl,rfl,member,own,rfl⟩)⟩

/-- Why a region gives none. -/
theorem linkInRegion_none {id : FileId} (found : linkInRegion w r addr = .ok none)
    (opened : w.openFile r = some id) :
    match r.sectName with
    | none => ∀ p ∈ (w.elf id).pheaders, holds (w.elf id) r addr p = false
    | some name => ∀ s ∈ (w.elf id).sections.tail, s.name ≠ some name := by
  unfold linkInRegion at found
  simp only [opened] at found
  cases named : r.sectName with
  | none =>
    simp only [named] at found
    split at found
    · simp at found
    · simpa using found
  | some name =>
    simp only [named] at found ⊢
    obtain ⟨s,search,result⟩ := Code.bind_ok_iff.mp found
    cases s with
    | none => exact findNamed_none search
    | some s => simp at result

/-- The region of the whole map through which an address is linked. -/
theorem link_split (linked : elfMapToLinkTimeAddress w addr = .ok (some t)) :
    ∃ front r back, fullMap w = front ++ r :: back ∧ covers r addr = true ∧ linkInRegion w r addr = .ok (some t) ∧
      ∀ x ∈ front, covers x addr = true → linkInRegion w x addr = .ok none := by
  obtain ⟨front,r,back,split,found,inside,others⟩ := linkLoop_some linked
  have same := getMap_covers w addr
  have kept : front.filter (covers · addr) = front := List.filter_eq_self.mpr fun x member => (others x member).1
  rw [split,List.filter_append,List.filter_cons_of_pos (by simpa using inside),kept] at same
  obtain ⟨l₁,l₂,whole,first,second⟩ := List.filter_eq_append_iff.mp same.symm
  obtain ⟨l₃,l₄,rest,skipped,-,-⟩ := List.filter_eq_cons_iff.mp second
  refine ⟨l₁ ++ l₃,r,l₄,by simp [whole,rest],inside,found,?_⟩
  intro x member covered
  rcases List.mem_append.mp member with member | member
  · have searched : x ∈ front := by
      rw [← first]
      exact List.mem_filter.mpr ⟨member,covered⟩
    exact (others x searched).2
  · exact absurd covered (skipped x member)

/-- The section from which an address in a region with a section name is counted. -/
def sectionOf (f : ElfFile) (sec : Option Section) (name : Name) (addr : Addr) : Option Section :=
  sec <|> f.sections.tail.find? fun s => s.addr ≤ addr && addr < s.addr + s.size && s.name = some name

/-- How a region answers. -/
theorem inRegion_some {rt : Addr}
    (found : elfRunTimeAddressInRegion r f sec addr = .ok (some rt)) :
    (r.sectName = none ∧ ∃ p, f.pheaders.find? (claims f r addr) = some p ∧ image r p addr = rt) ∨
      ∃ name s, r.sectName = some name ∧ sectionOf f sec name addr = some s ∧ s.name = some name ∧
        addr - s.addr + r.addr = rt := by
  unfold elfRunTimeAddressInRegion at found
  cases named : r.sectName with
  | none =>
    simp only [named] at found
    simp at found
    exact .inl ⟨rfl,found⟩
  | some name =>
    apply Or.inr
    cases sec with
    | some s =>
      simp only [named] at found
      cases own : s.name with
      | none => simp [hasName,own] at found
      | some n =>
        simp [hasName,own] at found
        exact ⟨name,s,rfl,rfl,by simp [own,found.1],found.2⟩
    | none =>
      simp only [named] at found
      split at found
      · simp at found
        obtain ⟨s,first,equal⟩ := found
        have matched := List.find?_some first
        simp at matched
        exact ⟨name,s,rfl,by simp [sectionOf,first],matched.2,equal⟩
      · simp at found

/-- The offset in the region that an address in a named section has lies in the region. -/
def Fits (r : Region) (f : ElfFile) (sec : Option Section) (addr : Addr) : Prop :=
  ∀ name s, r.sectName = some name → sectionOf f sec name addr = some s →
    (addr - s.addr).toNat < r.size.toNat ∧ r.addr.toNat + r.size.toNat < 2 ^ 64

theorem covers_offset (r : Region) (offset : Addr) :
    covers r (offset + r.addr) = true ↔ offset.toNat < r.size.toNat ∧ r.addr.toNat + r.size.toNat < 2 ^ 64 := by
  rw [covers_iff]
  constructor
  · rintro ⟨low,high⟩
    constructor <;> bv_omega
  · rintro ⟨inside,short⟩
    constructor <;> bv_omega

theorem answer_covered_iff {rt : Addr}
    (found : elfRunTimeAddressInRegion r f sec addr = .ok (some rt)) : covers r rt = true ↔ Fits r f sec addr := by
  obtain ⟨named,p,first,rfl⟩ | ⟨name,s,named,counted,-,rfl⟩ := inRegion_some found
  · have claimed := (claims_iff _ _ _ _).mp (List.find?_some first)
    simp [Fits,named,claimed.2.2]
  · rw [covers_offset]
    constructor
    · intro fits name' s' named' counted'
      obtain rfl := Option.some.inj (named.symm.trans named')
      obtain rfl := Option.some.inj (counted.symm.trans counted')
      exact fits
    · intro fits
      exact fits name s named counted

/-- Where a run-time address may be linked and come back: the region through which it is linked passes the
test of its file, no region of the file in front of it has the link-time address, and in the region both
tests of segments take the same one. -/
def Undisputed (w : World) (addr : Addr) (t : Target) : Prop :=
  ∀ front r back, fullMap w = front ++ r :: back → covers r addr = true → linkInRegion w r addr = .ok (some t) →
    (∀ x ∈ front, covers x addr = true → linkInRegion w x addr = .ok none) →
    (∀ x ∈ front, w.sameFile t.file x = true → Silent x (w.elf t.file) t.sec t.addr) ∧
    (Flat r (w.elf t.file) → ∀ x ∈ r :: back, w.sameFile t.file x = true → Silent x (w.elf t.file) t.sec t.addr) ∧
    (¬Flat r (w.elf t.file) → w.sameFile t.file r = true ∧ (r.sectName = none →
      (w.elf t.file).pheaders.find? (claims (w.elf t.file) r t.addr) =
        (w.elf t.file).pheaders.find? (holds (w.elf t.file) r addr)))

/-- The region through which an address is linked gives it back. -/
theorem linked_region_answers
    (linked : linkInRegion w r addr = .ok (some t)) (shaped : ¬Flat r (w.elf t.file))
    (agree : r.sectName = none → (w.elf t.file).pheaders.find? (claims (w.elf t.file) r t.addr) =
      (w.elf t.file).pheaders.find? (holds (w.elf t.file) r addr)) :
    elfRunTimeAddressInRegion r (w.elf t.file) t.sec t.addr = .ok (some addr) := by
  obtain ⟨-,⟨plain,-⟩ | ⟨named,p,first,-,link⟩ | ⟨name,s,named,sec,-,own,link⟩⟩ := linkInRegion_some linked
  · exact absurd plain shaped
  · have same := agree named
    rw [first] at same
    unfold elfRunTimeAddressInRegion
    simp only [named,same]
    simp [link,image_linkAddr]
  · unfold elfRunTimeAddressInRegion
    simp only [named,sec]
    simp [hasName,own,link]

theorem undisputed_returns (linked : elfMapToLinkTimeAddress w addr = .ok (some t))
    (clear : Undisputed w addr t) : elfMapToRunTimeAddress w t.file t.sec t.addr = .ok (some addr) := by
  obtain ⟨front,r,back,split,inside,found,others⟩ := link_split linked
  obtain ⟨before,plain,used⟩ := clear front r back split inside found others
  unfold elfMapToRunTimeAddress
  by_cases shape : Flat r (w.elf t.file)
  · have silent : ∀ x ∈ front ++ r :: back, w.sameFile t.file x = true → Silent x (w.elf t.file) t.sec t.addr := by
      intro x member
      rcases List.mem_append.mp member with member | member
      · exact before x member
      · exact plain shape x member
    have nothing := runThrough_silent w t.file t.sec t.addr silent []
    rw [List.append_nil] at nothing
    have same : t.addr = addr := by
      obtain ⟨-,⟨-,-,same⟩ | ⟨-,p,first,-⟩ | ⟨name,s,named,-⟩⟩ := linkInRegion_some found
      · exact same
      · simp [shape.2.1] at first
      · simp [shape.1] at named
    rw [split,nothing]
    simp [runThrough,shape.2.2,same]
  · obtain ⟨file,agree⟩ := used shape
    have answer := linked_region_answers found shape agree
    rw [split,runThrough_silent w t.file t.sec t.addr before]
    simp [runThrough,file,answer]

theorem find_same {α : Type} {l : List α} {p q : α → Bool} {a b : α} (first : l.find? p = some a) (second : l.find? q = some b)
    (left : q a = true) (right : p b = true) : a = b := by
  induction l with
  | nil => simp at first
  | cons x l ih =>
    by_cases here : p x
    · have equal : x = a := by simpa [here] using first
      subst equal
      simpa [left] using second
    · by_cases there : q x
      · have equal : x = b := by simpa [there] using second
        subst equal
        exact absurd right here
      · simp [here] at first
        simp [there] at second
        exact ih first second

/-- The test of `elf_map_to_run_time_address` finds the regions that open the file. -/
def Known (w : World) (id : FileId) : Prop := ∀ r ∈ fullMap w, w.openFile r = some id ↔ w.sameFile id r = true

/-- The segments end before the end of the address space. -/
def Orderly (f : ElfFile) : Prop := ∀ p ∈ f.pheaders, p.load = true → Short p

theorem isPHeaderRegion_load (kind : isPHeaderRegion f p r = true) : p.load = true := by
  simp only [isPHeaderRegion,Bool.and_eq_true] at kind
  exact kind.1.1.1

theorem claimed_short (orderly : Orderly f) {link : Addr} (member : p ∈ f.pheaders)
    (claimed : claims f r link p = true) : Short p :=
  orderly p member (isPHeaderRegion_load ((claims_iff _ _ _ _).mp claimed).1)

theorem held_short (orderly : Orderly f) (member : p ∈ f.pheaders)
    (held : holds f r addr p = true) : Short p :=
  orderly p member (isPHeaderRegion_load ((holds_iff _ _ _ _).mp held).1)

/-- The section of a linked address is one of the file. -/
theorem linked_section (linked : linkInRegion w r addr = .ok (some t)) {s : Section}
    (sec : t.sec = some s) : s ∈ (w.elf t.file).sections.tail := by
  have searched : t.sec = findSectionByAddress (w.elf t.file) t.addr → s ∈ (w.elf t.file).sections.tail := by
    intro equal
    rw [sec] at equal
    exact List.mem_of_find?_eq_some equal.symm
  obtain ⟨-,⟨-,search,-⟩ | ⟨-,p,-,search,-⟩ | ⟨name,s',-,own,member,-⟩⟩ := linkInRegion_some linked
  · exact searched search
  · exact searched search
  · obtain rfl := Option.some.inj (sec.symm.trans own)
    exact member

/-- A region that gives back an address which it covers has a link for it. -/
theorem answering_region_links {x : Region} (orderly : Orderly (w.elf t.file))
    (linked : linkInRegion w r addr = .ok (some t)) (opened : w.openFile x = some t.file)
    (answer : elfRunTimeAddressInRegion x (w.elf t.file) t.sec t.addr = .ok (some addr)) : linkInRegion w x addr ≠ .ok none := by
  intro nothing
  have none_linked := linkInRegion_none nothing opened
  obtain ⟨named,p,first,equal⟩ | ⟨name,s,named,counted,own,-⟩ := inRegion_some answer
  · simp only [named] at none_linked
    have member := List.mem_of_find?_eq_some first
    have claimed := List.find?_some first
    have held := holds_of_claims (claimed_short orderly member claimed) claimed equal
    simp [none_linked p member] at held
  · simp only [named] at none_linked
    cases sec : t.sec with
    | some s' =>
      simp [sectionOf,sec] at counted
      subst counted
      exact none_linked s' (linked_section linked sec) own
    | none =>
      simp only [sectionOf,sec] at counted
      exact none_linked s (List.mem_of_find?_eq_some counted) own

/-- The region through which an address is linked has the link-time address. -/
theorem linked_region_speaks (orderly : Orderly (w.elf t.file))
    (linked : linkInRegion w r addr = .ok (some t)) (inside : covers r addr = true) (shaped : ¬Flat r (w.elf t.file)) :
    ¬Silent r (w.elf t.file) t.sec t.addr := by
  intro silent
  obtain ⟨-,⟨plain,-⟩ | ⟨named,p,first,-,link⟩ | ⟨name,s,named,sec,-,own,-⟩⟩ := linkInRegion_some linked
  · exact shaped plain
  · have member := List.mem_of_find?_eq_some first
    have held := List.find?_some first
    have claimed := claims_of_holds (held_short orderly member held) held inside
    simp only [Silent,named] at silent
    rw [link] at silent
    simp [silent p member] at claimed
  · simp only [Silent,named,sec] at silent
    obtain ⟨n,same,different⟩ := silent
    exact different (Option.some.inj (same.symm.trans own))

theorem returned_undisputed (known : Known w t.file) (orderly : Orderly (w.elf t.file))
    (shaped : ¬((w.elf t.file).pheaders = [] ∧ (w.elf t.file).type = .exec))
    (returned : elfMapToRunTimeAddress w t.file t.sec t.addr = .ok (some addr))
    (covered : ∀ x rt, runThrough w t.file t.sec t.addr (fullMap w) = .ok (some (x,rt)) → covers x rt = true) :
    Undisputed w addr t := by
  intro front r back split inside linked others
  have notFlat : ¬Flat r (w.elf t.file) := fun plain => shaped plain.2
  have file : w.sameFile t.file r = true := (known r (by simp [split])).mp (linkInRegion_some linked).1
  have speaks := linked_region_speaks orderly linked inside notFlat
  obtain ⟨found,run,result⟩ := Code.bind_ok_iff.mp returned
  cases found with
  | none => exact absurd (runThrough_none run r (by simp [split]) file) speaks
  | some found =>
    obtain ⟨x,rt⟩ := found
    simp at result
    subst result
    obtain ⟨front',back',split',own,answer,silent⟩ := runThrough_some run
    have inside' := covered x rt run
    have equal : front' = front ∧ x = r := by
      have whole := split'.symm.trans split
      rcases List.append_eq_append_iff.mp whole with ⟨mid,first,second⟩ | ⟨mid,first,second⟩
      · cases mid with
        | nil => exact ⟨by simp [first],(List.cons.inj second).1⟩
        | cons y mid =>
          obtain ⟨rfl,rest⟩ := List.cons.inj second
          have opened := (known x (by simp [split'])).mpr own
          have unlinked := others x (by simp [first]) inside'
          exact absurd unlinked (answering_region_links orderly linked opened answer)
      · cases mid with
        | nil => exact ⟨by simp [first],(List.cons.inj second).1.symm⟩
        | cons y mid =>
          obtain ⟨rfl,rest⟩ := List.cons.inj second
          exact absurd (silent r (by simp [first]) file) speaks
    obtain ⟨rfl,rfl⟩ := equal
    refine ⟨silent,fun plain => absurd plain notFlat,fun _ => ⟨file,?_⟩⟩
    intro named
    obtain ⟨-,p,first,back_image⟩ | ⟨name,s,other,-⟩ := inRegion_some answer
    · obtain ⟨-,⟨plain,-⟩ | ⟨-,q,second,-,link⟩ | ⟨name,s,other,-⟩⟩ := linkInRegion_some linked
      · exact absurd plain notFlat
      · have claimed := List.find?_some first
        have held := List.find?_some second
        have left := holds_of_claims (claimed_short orderly (List.mem_of_find?_eq_some first) claimed) claimed back_image
        have right := claims_of_holds (held_short orderly (List.mem_of_find?_eq_some second) held) held inside
        rw [← link] at right
        rw [first,second,find_same first second left right]
      · simp [named] at other
    · simp [named] at other

/-- The byte of the file at an offset is in the region. -/
def InFile (r : Region) (offset : Addr) : Prop := offset - r.fileOffs < r.size

/-- A map in which no part of a file is mapped twice, of a file whose segments are apart. -/
structure MappedOnce (w : World) (id : FileId) : Prop where
  ranges : ((fullMap w).filter (w.sameFile id)).Pairwise fun r r' =>
    r.sectName = none → r'.sectName = none → ∀ offset, ¬(InFile r offset ∧ InFile r' offset)
  names : ((fullMap w).filter (w.sameFile id)).Pairwise fun r r' => r.sectName ≠ none → r'.sectName ≠ r.sectName
  kinds : ∀ r ∈ fullMap w, ∀ r' ∈ fullMap w, w.sameFile id r = true → w.sameFile id r' = true →
    (r.sectName = none ↔ r'.sectName = none)
  segments : ∀ p ∈ (w.elf id).pheaders, ∀ q ∈ (w.elf id).pheaders, ∀ addr,
    p.load = true → q.load = true → linkedAt p addr = true → linkedAt q addr = true → p = q
  orderly : Orderly (w.elf id)
  known : ∀ r ∈ fullMap w, w.openFile r = some id → w.sameFile id r = true

theorem inFile_of_covers {link : Addr} (inside : covers r (image r p link) = true) :
    InFile r (link - p.address + p.offset) := by
  obtain ⟨low,high⟩ := (covers_iff _ _).mp inside
  simp only [image] at low high
  simp only [InFile]
  generalize link - p.address + p.offset - r.fileOffs = offset at low high ⊢
  bv_omega

theorem mapped_once_undisputed (once : MappedOnce w t.file) : Undisputed w addr t := by
  intro front r back split inside linked others
  have here : r ∈ fullMap w := by simp [split]
  have file := once.known r here (linkInRegion_some linked).1
  -- A segment that has the link-time address is the one the region was linked by.
  have unique : ∀ p ∈ (w.elf t.file).pheaders, holds (w.elf t.file) r addr p = true → t.addr = linkAddr r p addr →
      claims (w.elf t.file) r t.addr p = true ∧
        ∀ x, ∀ q ∈ (w.elf t.file).pheaders, claims (w.elf t.file) x t.addr q = true → q = p := by
    intro p member held link
    have claimed := claims_of_holds (held_short once.orderly member held) held inside
    rw [← link] at claimed
    refine ⟨claimed,?_⟩
    intro x q other claimed'
    obtain ⟨kind,at_p,-⟩ := (claims_iff _ _ _ _).mp claimed
    obtain ⟨kind',at_q,-⟩ := (claims_iff _ _ _ _).mp claimed'
    exact once.segments q other p member t.addr (isPHeaderRegion_load kind') (isPHeaderRegion_load kind) at_q at_p
  have apart : ∀ x ∈ front, w.sameFile t.file x = true →
      (x.sectName = none → r.sectName = none → ∀ offset, ¬(InFile x offset ∧ InFile r offset)) ∧
        (x.sectName ≠ none → r.sectName ≠ x.sectName) := by
    intro x member own
    have ranges := once.ranges
    have names := once.names
    rw [split,List.filter_append,List.filter_cons_of_pos file] at ranges names
    have kept : x ∈ front.filter (w.sameFile t.file) := List.mem_filter.mpr ⟨member,own⟩
    exact ⟨(List.pairwise_append.mp ranges).2.2 x kept r List.mem_cons_self,
      (List.pairwise_append.mp names).2.2 x kept r List.mem_cons_self⟩
  refine ⟨?_,?_,?_⟩
  · intro x member own
    have same := once.kinds x (by simp [split,member]) r here own file
    obtain ⟨-,⟨plain,-⟩ | ⟨named,p,first,-,link⟩ | ⟨name,s,named,sec,-,own_name,-⟩⟩ := linkInRegion_some linked
    · simp [Silent,same.mpr plain.1,plain.2.1]
    · simp only [Silent,same.mpr named]
      intro q other
      by_contra claimed
      have claimed : claims (w.elf t.file) x t.addr q = true := by simpa using claimed
      obtain ⟨ours,only⟩ := unique p (List.mem_of_find?_eq_some first) (List.find?_some first) link
      obtain rfl := only x q other claimed
      have theirs := inFile_of_covers ((claims_iff _ _ _ _).mp claimed).2.2
      have mine := inFile_of_covers ((claims_iff _ _ _ _).mp ours).2.2
      exact (apart x member own).1 (same.mpr named) named _ ⟨theirs,mine⟩
    · have alien : x.sectName ≠ none := fun absent => by simp [same.mp absent] at named
      obtain ⟨other,equal⟩ := Option.ne_none_iff_exists'.mp alien
      have different := (apart x member own).2 alien
      simp only [Silent,equal,sec]
      refine ⟨name,own_name,?_⟩
      rintro rfl
      exact different (named.trans equal.symm)
  · intro plain x member own
    have same := once.kinds x (by rw [split]; exact List.mem_append_right _ member) r here own file
    simp [Silent,same.mpr plain.1,plain.2.1]
  · intro shaped
    refine ⟨file,?_⟩
    intro named
    obtain ⟨-,⟨plain,-⟩ | ⟨-,p,first,-,link⟩ | ⟨name,s,other,-⟩⟩ := linkInRegion_some linked
    · exact absurd plain shaped
    · obtain ⟨ours,only⟩ := unique p (List.mem_of_find?_eq_some first) (List.find?_some first) link
      have some_claims : ((w.elf t.file).pheaders.find? (claims (w.elf t.file) r t.addr)).isSome :=
        List.find?_isSome.mpr ⟨p,List.mem_of_find?_eq_some first,ours⟩
      obtain ⟨q,second⟩ := Option.isSome_iff_exists.mp some_claims
      obtain rfl := only r q (List.mem_of_find?_eq_some second) (List.find?_some second)
      rw [first,second]
    · simp [named] at other

theorem through_covered_iff {f : FileId} {rt : Addr}
    (found : runThrough w f sec addr (fullMap w) = .ok (some (r,rt))) : covers r rt = true ↔ Fits r (w.elf f) sec addr := by
  obtain ⟨-,-,-,-,answer,-⟩ := runThrough_some found
  exact answer_covered_iff answer

/-- An answer lies in its region when the offset in the section fits. An address that is linked comes back when
nothing disputes it, which is so in a map of a file that is mapped once, and only then if it comes back in a region. -/
theorem link_and_run_addresses (w : World) :
    (∀ f sec addr r rt, runThrough w f sec addr (fullMap w) = .ok (some (r,rt)) →
      (covers r rt = true ↔ Fits r (w.elf f) sec addr)) ∧
    ∀ addr t, elfMapToLinkTimeAddress w addr = .ok (some t) →
      (Undisputed w addr t → elfMapToRunTimeAddress w t.file t.sec t.addr = .ok (some addr)) ∧
      (MappedOnce w t.file → Undisputed w addr t) ∧
      (Known w t.file → Orderly (w.elf t.file) → ¬((w.elf t.file).pheaders = [] ∧ (w.elf t.file).type = .exec) →
        elfMapToRunTimeAddress w t.file t.sec t.addr = .ok (some addr) →
        (∀ x rt, runThrough w t.file t.sec t.addr (fullMap w) = .ok (some (x,rt)) → covers x rt = true) →
        Undisputed w addr t) := by
  refine ⟨fun f sec addr r rt => through_covered_iff,?_⟩
  intro addr t linked
  exact ⟨undisputed_returns linked,mapped_once_undisputed,returned_undisputed⟩

/-- A program with a text and a data segment. -/
def programFile : ElfFile :=
  ⟨[112],1,7,.exec,[],[⟨true,0,0x1000,0x200,0x200,5⟩,⟨true,0x200,0x2200,0x80,0x100,6⟩]⟩

/-- A kernel module: sections, and no segments. -/
def moduleFile : ElfFile :=
  ⟨[109],1,8,.other,[⟨none,false,0,0,0⟩,⟨some [116],true,0x40,0x100,0x1000⟩],[]⟩

def textOfModule : Section := ⟨some [116],true,0x40,0x100,0x1000⟩

def regionOfModule : Region := ⟨0xA0000,0x100,0,0,false,1,8,some [109],some [116],0⟩

/-- The program is mapped in two regions, and the text of the module in one. -/
def exampleMap : World where
  regions := [⟨0x70000,0x200,0,0,false,1,7,some [112],none,0⟩,⟨0x90000,0x80,0x200,0,false,1,7,some [112],none,0⟩,regionOfModule]
  elf := fun id => if id = 0 then programFile else moduleFile
  openFile := fun r => if r.fileName = some [112] then some 0 else if r.fileName = some [109] then some 1 else none
  sameFile := fun id r => r.dev = 1 && r.ino = if id = 0 then 7 else 8

theorem exampleMap_once : MappedOnce exampleMap 0 := by
  have whole : (fullMap exampleMap).filter (exampleMap.sameFile 0) = exampleMap.regions.take 2 := by decide
  have unnamed : ∀ r ∈ fullMap exampleMap, exampleMap.sameFile 0 r = true → r.sectName = none := by decide
  refine ⟨?_,?_,?_,?_,?_,by decide⟩
  · rw [whole]
    simp [exampleMap,InFile]
    intro offset low
    bv_omega
  · rw [whole]
    decide
  · intro r member r' member' own own'
    simp [unnamed r member own,unnamed r' member' own']
  · intro p first q second addr _ _ at_p at_q
    have pheaders : (exampleMap.elf 0).pheaders = programFile.pheaders := rfl
    simp only [pheaders,programFile,List.mem_cons,List.not_mem_nil,or_false] at first second
    obtain ⟨low,high⟩ := (linkedAt_iff _ _).mp at_p
    obtain ⟨low',high'⟩ := (linkedAt_iff _ _).mp at_q
    rcases first with rfl | rfl <;> rcases second with rfl | rfl
    · rfl
    · simp only at low high low' high'
      bv_omega
    · simp only at low high low' high'
      bv_omega
    · rfl
  · intro p member _
    have pheaders : (exampleMap.elf 0).pheaders = programFile.pheaders := rfl
    simp only [pheaders,programFile,List.mem_cons,List.not_mem_nil,or_false] at member
    rcases member with rfl | rfl <;> constructor <;> decide

theorem link_and_run_addresses_example :
    elfMapToRunTimeAddress exampleMap 0 none 0x2210 = .ok (some 0x90010) ∧
    Undisputed exampleMap 0x90010 ⟨0,none,0x2210⟩ ∧ covers regionOfModule 0xA0010 = true := by
  obtain ⟨answers,links⟩ := link_and_run_addresses exampleMap
  obtain ⟨returns,once,needed⟩ := links 0x90010 ⟨0,none,0x2210⟩ (by decide)
  have clear := once exampleMap_once
  have fits : Fits regionOfModule moduleFile (some textOfModule) 0x1010 := by
    intro name s _ counted
    obtain rfl := Option.some.inj counted
    decide
  exact ⟨returns clear,clear,(answers 1 (some textOfModule) 0x1010 regionOfModule 0xA0010 (by decide)).mpr fits⟩

theorem exampleMap_module_once : MappedOnce exampleMap 1 := by
  have whole : (fullMap exampleMap).filter (exampleMap.sameFile 1) = [regionOfModule] := by decide
  have named : ∀ r ∈ fullMap exampleMap, exampleMap.sameFile 1 r = true → r.sectName ≠ none := by decide
  have pheaders : (exampleMap.elf 1).pheaders = [] := rfl
  refine ⟨?_,?_,?_,by simp [pheaders],by simp [Orderly,pheaders],by decide⟩
  · simp [whole]
  · simp [whole]
  · intro r member r' member' own own'
    simp [named r member own,named r' member' own']

/-- An address behind the end of the section has a run-time address behind the end of the region. -/
theorem address_behind_section :
    ¬∀ (w : World) (f : FileId) (sec : Option Section) (addr : Addr) (r : Region) (rt : Addr), MappedOnce w f →
      runThrough w f sec addr (fullMap w) = .ok (some (r,rt)) → covers r rt = true := by
  intro claim
  have inside := claim exampleMap 1 (some textOfModule) 0x5000 regionOfModule 0xA4000 exampleMap_module_once (by decide)
  exact absurd inside (by decide)

end Tcf.Elf
