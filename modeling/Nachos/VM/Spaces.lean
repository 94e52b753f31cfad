import Nachos.VM.Access

/-!
# Address spaces and context switches

The two constructors of `AddrSpace`, `SaveState` and `RestoreState` of `userprog/addrspace.cc`, and
the state that `Initialize` and the constructor of `Machine` leave.

* The table of a new space is on the heap at the next free number; `AddrSpace(AddrSpace*)` copies
  all but the last eight entries of its parent by value.
* `new TranslationEntry[TLBSize]` does not initialise: what it holds is the argument `fresh`, of
  which only `valid` is overwritten.
* `SaveState` looks at all TLB entries, valid or not.  The model returns the subscripts outside
  the page table that it uses, in the order of their use; a store through one of them is not
  carried out.
-/

namespace Nachos

open Function

variable {c : Sizes}

/-! ### Making spaces -/

/-- The entry that both constructors give to a page that is nowhere yet. -/
def freshEntry (vpn : ℕ) : TranslationEntry := ⟨vpn, -1, false, false, false, false⟩

/-- Add an address space with the given table. -/
@[simp] def VM.addSpace (s : VM c) (space : AddrSpace) (table : ℕ → TranslationEntry) : VM c :=
  { s with
    spaces := update s.spaces s.numSpaces space
    numSpaces := s.numSpaces + 1
    pageTable := fun r => if r.space = s.numSpaces then table r.vpn else s.pageTable r }

/-- The limits that `AddrSpace(OpenFile*, string)` computes from the header. -/
def AddrSpace.ofHeader (noffH : NoffHeader) (fn : String) : AddrSpace :=
  let size := noffH.code.size + noffH.initData.size + noffH.uninitData.size + UserStackSize
  let numPages := divRoundUp size PageSize
  let initData := divRoundUp noffH.code.size PageSize
  { initData := initData
    noInitData := initData + divRoundUp noffH.initData.size PageSize
    stack := numPages - divRoundUp UserStackSize PageSize
    numPages := numPages
    filename := fn }

/-- `AddrSpace::AddrSpace(OpenFile*, string)`. -/
def newAddrSpace (executable : File) (fn : String) (s : VM c) : Except Fault (VM c) :=
  let noffH := executable.noffHeader
  if noffH.noffMagic = NOFFMAGIC then .ok (s.addSpace (.ofHeader noffH fn) freshEntry)
  else .error .notNoff

/-- `AddrSpace::AddrSpace(AddrSpace*)`: the last eight pages are a new stack. -/
def copyAddrSpace (other : ℕ) (s : VM c) : VM c :=
  let dataAndCodePages := (s.spaces other).numPages - 8
  s.addSpace (s.spaces other) fun index =>
    if index < dataAndCodePages then
      { s.pageTable ⟨other, index⟩ with virtualPage := index }
    else freshEntry index

/-! ### Switching -/

/-- The first loop of `SaveState`, over the TLB entries in the list. -/
def saveStateLoop (sp : ℕ) : List (Fin c.TLBSize) → VM c → VM c × List ℤ
  | [], s => (s, [])
  | i :: l, s =>
    let t := s.tlb i
    if 0 ≤ t.virtualPage ∧ t.virtualPage < (s.spaces sp).numPages then
      saveStateLoop sp l (s.modifyEntry ⟨sp, t.virtualPage.toNat⟩ fun e =>
        { e with use := t.use, dirty := t.dirty })
    else
      let (s, wild) := saveStateLoop sp l s
      (s, t.virtualPage :: wild)

/-- A TLB straight from `new TranslationEntry[TLBSize]`, with every entry marked invalid. -/
def freshTLB (fresh : Fin c.TLBSize → TranslationEntry) : Fin c.TLBSize → TranslationEntry :=
  fun i => { fresh i with valid := false }

/-- `AddrSpace::SaveState`, and the subscripts outside the page table. -/
def saveState (sp : ℕ) (fresh : Fin c.TLBSize → TranslationEntry) (s : VM c) : VM c × List ℤ :=
  let (s, wild) := saveStateLoop sp (List.finRange c.TLBSize) s
  ({ s with tlb := freshTLB fresh }, wild)

/-- `AddrSpace::RestoreState`. -/
def restoreState (fresh : Fin c.TLBSize → TranslationEntry) (s : VM c) : VM c :=
  { s with indexTLBSndChc := ⟨0, c.tlb_pos⟩, tlb := freshTLB fresh }

/-- The state after `Initialize`: the words of the two bitmaps and the entries of the TLB are what
`new` finds. -/
def boot (files : String → Option File) (swapFile : Option File)
    (words words' : ℕ → BitVec 32) (fresh : Fin c.TLBSize → TranslationEntry) : VM c where
  mainMemory _ := 0
  tlb := freshTLB fresh
  BadVAddrReg := 0
  MemBitMap := .new _ words
  SWAPBitMap := .new _ words'
  IPT _ := none
  indexTLBSndChc := ⟨0, c.tlb_pos⟩
  indexSWAPSndChc := ⟨0, c.frames_pos⟩
  indexSWAPFIFO := ⟨0, c.frames_pos⟩
  numPageFaults := 0
  spaces _ := ⟨0, 0, 0, 0, ""⟩
  numSpaces := 0
  pageTable r := freshEntry r.vpn
  current := none
  files := files
  swapFile := swapFile

/-! ### What `SaveState` does to the page table -/

theorem saveStateLoop_bitsOnly (sp : ℕ) (l : List (Fin c.TLBSize)) (s : VM c) :
    BitsOnly s (saveStateLoop sp l s).1 := by
  induction l generalizing s with
  | nil => exact BitsOnly.refl s
  | cons i l ih =>
    rw [saveStateLoop]
    split_ifs
    · exact (BitsOnly.modifyEntry s _ _ _).trans (ih _)
    · exact ih s

/-- One turn of the loop, seen from page `p`. -/
theorem saveStateLoop_cons (sp : ℕ) (i : Fin c.TLBSize) (l : List (Fin c.TLBSize)) (s : VM c)
    {p : ℕ} (hp : p < (s.spaces sp).numPages) :
    ∃ s₁ : VM c, (saveStateLoop sp (i :: l) s).1 = (saveStateLoop sp l s₁).1 ∧ s₁.tlb = s.tlb ∧
      s₁.spaces = s.spaces ∧ s₁.pageTable ⟨sp, p⟩ =
        if (s.tlb i).virtualPage = p then
          { s.pageTable ⟨sp, p⟩ with use := (s.tlb i).use, dirty := (s.tlb i).dirty }
        else s.pageTable ⟨sp, p⟩ := by
  rw [saveStateLoop]
  by_cases hr : 0 ≤ (s.tlb i).virtualPage ∧ (s.tlb i).virtualPage < (s.spaces sp).numPages
  · rw [if_pos hr]
    refine ⟨_, rfl, rfl, rfl, ?_⟩
    by_cases hi : (s.tlb i).virtualPage = p
    · simp [hi]
    · have hne : (⟨sp, p⟩ : PTRef) ≠ ⟨sp, (s.tlb i).virtualPage.toNat⟩ := by
        simp only [ne_eq, PTRef.mk.injEq, true_and]
        omega
      simp [hi, update_of_ne hne]
  · rw [if_neg hr]
    refine ⟨s, rfl, rfl, rfl, ?_⟩
    rw [if_neg (by omega)]

/-- The last entry of the list that names a page decides its bits. -/
theorem saveStateLoop_bits (sp : ℕ) (l : List (Fin c.TLBSize)) (s : VM c) {p : ℕ}
    (hp : p < (s.spaces sp).numPages) (hl : l.Pairwise (· < ·)) :
    (∃ i ∈ l, (s.tlb i).virtualPage = p ∧ (∀ j ∈ l, i < j → (s.tlb j).virtualPage ≠ p) ∧
      (saveStateLoop sp l s).1.pageTable ⟨sp, p⟩ =
        { s.pageTable ⟨sp, p⟩ with use := (s.tlb i).use, dirty := (s.tlb i).dirty }) ∨
    ((∀ i ∈ l, (s.tlb i).virtualPage ≠ p) ∧
      (saveStateLoop sp l s).1.pageTable ⟨sp, p⟩ = s.pageTable ⟨sp, p⟩) := by
  induction l generalizing s with
  | nil => exact Or.inr ⟨by simp, rfl⟩
  | cons i l ih =>
    obtain ⟨s₁, heq, htlb, hsp, hpt⟩ := saveStateLoop_cons sp i l s hp
    obtain ⟨hlt, hl⟩ := List.pairwise_cons.1 hl
    rw [heq]
    rcases ih s₁ (by rw [hsp]; exact hp) hl with ⟨j, hj, hvp, hlast, hres⟩ | ⟨hno, hres⟩
    · refine Or.inl ⟨j, List.mem_cons_of_mem i hj, by rw [← htlb]; exact hvp, ?_, ?_⟩
      · intro k hk hjk
        rcases List.mem_cons.1 hk with rfl | hk
        · exact absurd (hlt j hj) (by omega)
        · rw [← htlb]
          exact hlast k hk hjk
      · rw [hres, hpt, htlb]
        split_ifs <;> rfl
    · rw [htlb] at hno
      by_cases hi : (s.tlb i).virtualPage = p
      · refine Or.inl ⟨i, List.mem_cons_self, hi, ?_, by rw [hres, hpt, if_pos hi]⟩
        intro k hk hik
        rcases List.mem_cons.1 hk with rfl | hk
        · exact absurd hik (lt_irrefl _)
        · exact hno k hk
      · refine Or.inr ⟨?_, by rw [hres, hpt, if_neg hi]⟩
        intro k hk
        rcases List.mem_cons.1 hk with rfl | hk
        · exact hi
        · exact hno k hk

/-- The loop leaves the entries of other spaces alone. -/
theorem saveStateLoop_other (sp : ℕ) (l : List (Fin c.TLBSize)) (s : VM c) {r : PTRef}
    (hr : r.space ≠ sp) : (saveStateLoop sp l s).1.pageTable r = s.pageTable r := by
  induction l generalizing s with
  | nil => rfl
  | cons i l ih =>
    rw [saveStateLoop]
    split_ifs
    · rw [ih]
      exact update_of_ne (fun heq => hr (by rw [heq])) ..
    · exact ih s

/-- The subscripts outside the table are those of the entries that name no page. -/
theorem saveStateLoop_wild (sp : ℕ) (l : List (Fin c.TLBSize)) (s : VM c) :
    (saveStateLoop sp l s).2 = [] ↔ ∀ i ∈ l, 0 ≤ (s.tlb i).virtualPage ∧
      (s.tlb i).virtualPage < (s.spaces sp).numPages := by
  induction l generalizing s with
  | nil => simp [saveStateLoop]
  | cons i l ih =>
    rw [saveStateLoop, List.forall_mem_cons]
    split_ifs with hr
    · rw [ih]
      exact (and_iff_right hr).symm
    · simp [hr]

/-- The use and dirty bits that page `p` should have after a switch: those of its valid TLB entry,
or else those it had. -/
def currentBits (sp : ℕ) (s : VM c) (p : ℕ) : Bool × Bool :=
  match (List.finRange c.TLBSize).find? fun i =>
      (s.tlb i).valid && (s.tlb i).virtualPage == (p : ℤ) with
  | some i => ((s.tlb i).use, (s.tlb i).dirty)
  | none => ((s.pageTable ⟨sp, p⟩).use, (s.pageTable ⟨sp, p⟩).dirty)

/-- `SaveState` did its work: no bit is lost, and no subscript is out of range. -/
def BitsSaved (sp : ℕ) (s : VM c) (result : VM c × List ℤ) : Prop :=
  (∀ p < (s.spaces sp).numPages,
    ((result.1.pageTable ⟨sp, p⟩).use, (result.1.pageTable ⟨sp, p⟩).dirty) =
      currentBits sp s p) ∧
  result.2 = []

/-- The valid TLB entries mirror distinct pages of the space. -/
structure Mirrors (sp : ℕ) (s : VM c) : Prop where
  range : ∀ i, (s.tlb i).valid = true →
    0 ≤ (s.tlb i).virtualPage ∧ (s.tlb i).virtualPage < (s.spaces sp).numPages
  inj : ∀ i j, (s.tlb i).valid = true → (s.tlb j).valid = true →
    (s.tlb i).virtualPage = (s.tlb j).virtualPage → i = j

/-- Entry `i` is invalid, and the garbage in it does no harm: it names a page of the space, and
unless a later entry names the same page it has the bits of that page. -/
def Harmless (sp : ℕ) (s : VM c) (i : Fin c.TLBSize) : Prop :=
  0 ≤ (s.tlb i).virtualPage ∧ (s.tlb i).virtualPage < (s.spaces sp).numPages ∧
    ((∀ j, i < j → (s.tlb j).virtualPage ≠ (s.tlb i).virtualPage) →
      ((s.tlb i).use, (s.tlb i).dirty) = currentBits sp s (s.tlb i).virtualPage.toNat)

theorem currentBits_of_valid {sp : ℕ} {s : VM c} (h : Mirrors sp s) {i : Fin c.TLBSize} {p : ℕ}
    (hi : s.Maps i p) : currentBits sp s p = ((s.tlb i).use, (s.tlb i).dirty) := by
  unfold currentBits
  cases hfind : (List.finRange c.TLBSize).find? fun i =>
      (s.tlb i).valid && (s.tlb i).virtualPage == (p : ℤ) with
  | none =>
    have := List.find?_eq_none.1 hfind i (List.mem_finRange i)
    simp [hi.1, hi.2] at this
  | some j =>
    have hj := List.find?_some hfind
    simp only [Bool.and_eq_true, beq_iff_eq] at hj
    rw [h.inj j i hj.1 hi.1 (hj.2.trans hi.2.symm)]

theorem currentBits_of_none {sp : ℕ} {s : VM c} {p : ℕ}
    (hno : ∀ i, (s.tlb i).virtualPage ≠ (p : ℤ)) :
    currentBits sp s p = ((s.pageTable ⟨sp, p⟩).use, (s.pageTable ⟨sp, p⟩).dirty) := by
  unfold currentBits
  rw [List.find?_eq_none.2 fun i _ => by simp [hno i]]

/-- **`SaveState` keeps the bits of every page exactly when the garbage in the invalid TLB entries
is harmless.** -/
theorem saveState_bitsSaved_iff (sp : ℕ) (fresh : Fin c.TLBSize → TranslationEntry) (s : VM c)
    (h : Mirrors sp s) :
    BitsSaved sp s (saveState sp fresh s) ↔
      ∀ i, (s.tlb i).valid = false → Harmless sp s i := by
  have hbits := fun p (hp : p < (s.spaces sp).numPages) =>
    saveStateLoop_bits sp (List.finRange c.TLBSize) s hp (List.pairwise_lt_finRange _)
  have hwild := saveStateLoop_wild sp (List.finRange c.TLBSize) s
  simp only [List.mem_finRange, true_and, forall_const] at hbits hwild
  constructor
  · rintro ⟨hsaved, hw⟩ i hi
    have hrange := hwild.1 hw i
    refine ⟨hrange.1, hrange.2, fun hlast => ?_⟩
    obtain ⟨p, hp⟩ := Int.eq_ofNat_of_zero_le hrange.1
    have hlt : p < (s.spaces sp).numPages := by omega
    rw [hp, Int.toNat_natCast, ← hsaved p hlt]
    rcases hbits p hlt with ⟨j, hvp, hj, hres⟩ | ⟨hno, -⟩
    · -- both `i` and `j` are the last entry that names `p`
      have hij : i = j := by
        rcases lt_trichotomy i j with hlt | heq | hlt
        · exact absurd (hvp.trans hp.symm) (hlast j hlt)
        · exact heq
        · exact absurd hp (hj i hlt)
      subst hij
      simp only [saveState, hres]
    · exact absurd hp (hno i)
  · intro hharm
    have hall : ∀ i,
        0 ≤ (s.tlb i).virtualPage ∧ (s.tlb i).virtualPage < (s.spaces sp).numPages := by
      intro i
      cases hv : (s.tlb i).valid with
      | true => exact h.range i hv
      | false => exact ⟨(hharm i hv).1, (hharm i hv).2.1⟩
    refine ⟨?_, hwild.2 hall⟩
    intro p hp
    rcases hbits p hp with ⟨i, hvp, hlast, hres⟩ | ⟨hno, hres⟩
    · have heq : currentBits sp s p = ((s.tlb i).use, (s.tlb i).dirty) := by
        cases hv : (s.tlb i).valid with
        | true => exact currentBits_of_valid h ⟨hv, hvp⟩
        | false =>
          have := (hharm i hv).2.2 fun j hj => by rw [hvp]; exact hlast j hj
          rw [hvp, Int.toNat_natCast] at this
          exact this.symm
      simp only [saveState, hres, heq]
    · simp only [saveState, hres, currentBits_of_none hno]

/-- One address space of ten pages, with page 1 in the TLB and all other TLB entries zero.  Page 0
is in memory, its dirty bit is `d`. -/
def zeroGarbage (d : Bool) : VM machineH :=
  let zero : TranslationEntry := ⟨0, 0, false, false, false, false⟩
  { boot (fun _ => none) none (fun _ => 0) (fun _ => 0) fun _ => zero with
    spaces := fun _ => ⟨1, 2, 2, 10, "sort"⟩
    numSpaces := 1
    current := some 0
    pageTable := fun r =>
      if r.vpn = 0 then ⟨0, 0, true, false, false, d⟩
      else if r.vpn = 1 then ⟨1, 1, true, false, false, false⟩
      else freshEntry r.vpn
    tlb := fun i => if i.val = 0 then ⟨1, 1, true, false, true, true⟩ else zero }

theorem zeroGarbage_mirrors (d : Bool) : Mirrors 0 (zeroGarbage d) := by
  cases d <;> exact ⟨by decide, by decide⟩

/-- The page was written, left the TLB, and `SaveState` forgets that it is dirty. -/
theorem saveState_loses_dirty_bit :
    Mirrors 0 (zeroGarbage true) ∧
      ((zeroGarbage true).pageTable ⟨0, 0⟩).dirty = true ∧
      (∀ i, ¬ (zeroGarbage true).Maps i 0) ∧
      ((saveState 0 (zeroGarbage true).tlb (zeroGarbage true)).1.pageTable ⟨0, 0⟩).dirty = false ∧
      ¬ BitsSaved 0 (zeroGarbage true)
        (saveState 0 (zeroGarbage true).tlb (zeroGarbage true)) := by
  refine ⟨zeroGarbage_mirrors true, rfl, ?_, by decide, ?_⟩
  · intro i hi
    have hv : ∀ i, ((zeroGarbage true).tlb i).valid = true →
        ((zeroGarbage true).tlb i).virtualPage ≠ (0 : ℕ) := by decide
    exact hv i hi.1 hi.2
  · intro h
    exact absurd (h.1 0 (by decide)) (by decide)

theorem saveState_bitsSaved_clean :
    Mirrors 0 (zeroGarbage false) ∧
      BitsSaved 0 (zeroGarbage false)
        (saveState 0 (zeroGarbage false).tlb (zeroGarbage false)) := by
  refine ⟨zeroGarbage_mirrors false,
    (saveState_bitsSaved_iff 0 _ _ (zeroGarbage_mirrors false)).2 ?_⟩
  unfold Harmless
  decide

end Nachos
