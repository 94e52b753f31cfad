import Nachos.VM.Access

/-!
# `Machine::Translate` with a TLB or a page table

`translate` of the virtual memory build finds its entries in the TLB.  Here is the whole of
`Machine::Translate` of `machine/translate.cc`: a machine has a TLB or a page table, and the two
`ASSERT`s at the start fail on a machine that has both or neither.

* `MMU.Outcome`: what `Translate` may return, with the checks in their order.
* `MMU.translate_outcome`: there is always such an outcome; the last `ASSERT` does not fail.
* `translate_eq_mmu`: `translate` is `Translate` of a machine with a TLB.
* `translation_exact`: an exception changes no entry, and a translation marks the entry it used.

The entries hold arbitrary numbers.  `pageFrame` is unsigned, so that a negative frame number is a
large one; `MemorySize` is an `int`, so that the address of a byte in memory is one too.
-/

namespace Nachos

variable {c : Sizes}

/-- The tables of `class Machine`; a missing table is the `NULL` of the source. -/
structure MMU (c : Sizes) where
  tlb : Option (Fin c.TLBSize → TranslationEntry)
  pageTable : Option (ℕ → TranslationEntry)
  pageTableSize : ℕ

/-- The `ASSERT`s of `Translate`. -/
inductive TranslateAssert
  | tlbAndPageTable   -- `tlb == NULL || pageTable == NULL`
  | noTable           -- `tlb != NULL || pageTable != NULL`
  | physAddrRange     -- `*physAddr + size <= MemorySize`
  deriving DecidableEq, Repr

/-- The address of an entry: `&tlb[i]`, or `&pageTable[vpn]`. -/
inductive EntryRef (c : Sizes)
  | tlb (i : Fin c.TLBSize)
  | pageTable (vpn : ℕ)
  deriving DecidableEq

namespace MMU

/-- `*entry = e`. -/
def setEntry (m : MMU c) (e : TranslationEntry) : EntryRef c → MMU c
  | .tlb i => { m with tlb := m.tlb.map fun tlb => Function.update tlb i e }
  | .pageTable vpn =>
    { m with pageTable := m.pageTable.map fun table => Function.update table vpn e }

/-- The end of `Translate`, when `entry` points to `e`. -/
def useEntry (m : MMU c) (entry : EntryRef c) (e : TranslationEntry) (virtAddr : BitVec 32)
    (size : ℕ) (writing : Bool) : Except TranslateAssert (Except ExceptionType ℕ × MMU c) :=
  if e.readOnly && writing then .ok (.error .readOnlyException, m)
  else if 0 ≤ e.physicalPage ∧ e.physicalPage < c.NumPhysPages then
    let m := m.setEntry { e with use := true, dirty := if writing then true else e.dirty } entry
    let physAddr := e.physicalPage.toNat * PageSize + offsetOf virtAddr
    if physAddr + size ≤ c.NumPhysPages * PageSize then .ok (.ok physAddr, m)
    else .error .physAddrRange
  else .ok (.error .busErrorException, m)

/-- The loop over the TLB. -/
def findTLB (tlb : Fin c.TLBSize → TranslationEntry) (vpn : ℕ) : Option (Fin c.TLBSize) :=
  (List.finRange c.TLBSize).find? fun i => (tlb i).valid && (tlb i).virtualPage == (vpn : ℤ)

/-- `Machine::Translate`. -/
def translate (m : MMU c) (virtAddr : BitVec 32) (size : ℕ) (writing : Bool) :
    Except TranslateAssert (Except ExceptionType ℕ × MMU c) :=
  if Misaligned virtAddr size then .ok (.error .addressErrorException, m)
  else
    let vpn := pageOf virtAddr
    match m.tlb, m.pageTable with
    | some _, some _ => .error .tlbAndPageTable
    | none, none => .error .noTable
    | none, some pageTable =>
      if vpn ≥ m.pageTableSize then .ok (.error .addressErrorException, m)
      else if !(pageTable vpn).valid then .ok (.error .pageFaultException, m)
      else m.useEntry (.pageTable vpn) (pageTable vpn) virtAddr size writing
    | some tlb, none =>
      match findTLB tlb vpn with
      | none => .ok (.error .pageFaultException, m)
      | some i => m.useEntry (.tlb i) (tlb i) virtAddr size writing

/-! ### The entry of a page -/

/-- `entry` points to `e`, the first valid entry for page `vpn`. -/
inductive Finds (m : MMU c) (vpn : ℕ) : EntryRef c → TranslationEntry → Prop
  | tlb {tlb : Fin c.TLBSize → TranslationEntry} {i : Fin c.TLBSize} (htlb : m.tlb = some tlb)
      (hmaps : (tlb i).valid = true ∧ (tlb i).virtualPage = vpn)
      (hfirst : ∀ j < i, ¬ ((tlb j).valid = true ∧ (tlb j).virtualPage = vpn)) :
      Finds m vpn (.tlb i) (tlb i)
  | pageTable {table : ℕ → TranslationEntry} (htable : m.pageTable = some table)
      (hlt : vpn < m.pageTableSize) (hvalid : (table vpn).valid = true) :
      Finds m vpn (.pageTable vpn) (table vpn)

theorem findTLB_some {tlb : Fin c.TLBSize → TranslationEntry} {vpn : ℕ} {i : Fin c.TLBSize}
    (h : findTLB tlb vpn = some i) :
    ((tlb i).valid = true ∧ (tlb i).virtualPage = vpn) ∧
      ∀ j < i, ¬ ((tlb j).valid = true ∧ (tlb j).virtualPage = vpn) := by
  obtain ⟨hi, k, hk, hki, hbefore⟩ := List.find?_eq_some_iff_getElem.1 h
  rw [List.getElem_finRange] at hki
  subst hki
  refine ⟨by simpa using hi, fun j hj hm => ?_⟩
  have := hbefore j hj
  rw [List.getElem_finRange] at this
  simp [hm.1, hm.2] at this

theorem findTLB_none {tlb : Fin c.TLBSize → TranslationEntry} {vpn : ℕ}
    (h : findTLB tlb vpn = none) (i : Fin c.TLBSize) :
    ¬ ((tlb i).valid = true ∧ (tlb i).virtualPage = vpn) := by
  intro hm
  have := List.find?_eq_none.1 h i (List.mem_finRange i)
  simp [hm.1, hm.2] at this

/-! ### The outcomes -/

/-- What `Translate` may return, and the tables it leaves. -/
inductive Outcome (m : MMU c) (virtAddr : BitVec 32) (size : ℕ) (writing : Bool) :
    Except ExceptionType ℕ → MMU c → Prop
  | misaligned (h : Misaligned virtAddr size) :
      Outcome m virtAddr size writing (.error .addressErrorException) m
  | pastEnd (hal : ¬ Misaligned virtAddr size) (h : m.tlb = none)
      (hge : m.pageTableSize ≤ pageOf virtAddr) :
      Outcome m virtAddr size writing (.error .addressErrorException) m
  | missing (hal : ¬ Misaligned virtAddr size)
      (h : ∀ entry e, ¬ m.Finds (pageOf virtAddr) entry e) :
      Outcome m virtAddr size writing (.error .pageFaultException) m
  | readOnly {entry : EntryRef c} {e : TranslationEntry} (hal : ¬ Misaligned virtAddr size)
      (hfinds : m.Finds (pageOf virtAddr) entry e) (hro : e.readOnly = true)
      (hw : writing = true) :
      Outcome m virtAddr size writing (.error .readOnlyException) m
  | badFrame {entry : EntryRef c} {e : TranslationEntry} (hal : ¬ Misaligned virtAddr size)
      (hfinds : m.Finds (pageOf virtAddr) entry e)
      (hframe : ∀ f : Fin c.NumPhysPages, e.physicalPage ≠ (f : ℕ)) :
      Outcome m virtAddr size writing (.error .busErrorException) m
  | translated {entry : EntryRef c} {e : TranslationEntry} {f : Fin c.NumPhysPages}
      (hal : ¬ Misaligned virtAddr size) (hfinds : m.Finds (pageOf virtAddr) entry e)
      (hwrite : writing = true → e.readOnly = false) (hframe : e.physicalPage = (f : ℕ)) :
      Outcome m virtAddr size writing (.ok (f * PageSize + offsetOf virtAddr))
        (m.setEntry { e with use := true, dirty := if writing then true else e.dirty } entry)

variable {m : MMU c} {virtAddr : BitVec 32} {size : ℕ} {writing : Bool}

/-- The end of `Translate`: an aligned access lies in one frame. -/
theorem useEntry_outcome (hal : ¬ Misaligned virtAddr size)
    (hsize : size = 1 ∨ size = 2 ∨ size = 4) {entry : EntryRef c} {e : TranslationEntry}
    (hfinds : m.Finds (pageOf virtAddr) entry e) :
    ∃ result m', m.useEntry entry e virtAddr size writing = .ok (result, m') ∧
      m.Outcome virtAddr size writing result m' := by
  unfold useEntry
  by_cases hro : (e.readOnly && writing) = true
  · rw [if_pos hro]
    rw [Bool.and_eq_true] at hro
    exact ⟨_, _, rfl, .readOnly hal hfinds hro.1 hro.2⟩
  rw [if_neg hro]
  by_cases hframe : 0 ≤ e.physicalPage ∧ e.physicalPage < c.NumPhysPages
  · obtain ⟨f, hf⟩ : ∃ f : Fin c.NumPhysPages, e.physicalPage = (f : ℕ) :=
      ⟨⟨e.physicalPage.toNat, by omega⟩, by simp only; omega⟩
    have hend : (f : ℕ) * PageSize + offsetOf virtAddr + size ≤ c.NumPhysPages * PageSize := by
      have hin := offsetOf_add_le hal hsize
      have hlt := f.isLt
      unfold PageSize at *
      omega
    have hwrite : writing = true → e.readOnly = false := by
      intro hw
      simpa [hw] using hro
    have hnat : e.physicalPage.toNat = f := by omega
    simp only [if_pos hframe, hnat, if_pos hend]
    exact ⟨_, _, rfl, .translated hal hfinds hwrite hf⟩
  · rw [if_neg hframe]
    refine ⟨_, _, rfl, .badFrame hal hfinds fun f hf => hframe ?_⟩
    have hlt := f.isLt
    omega

/-- **`Translate` has an outcome** on every machine with one table. -/
theorem translate_outcome (virtAddr : BitVec 32) (writing : Bool)
    (hone : m.tlb.isSome ≠ m.pageTable.isSome)
    (hsize : size = 1 ∨ size = 2 ∨ size = 4) :
    ∃ result m', m.translate virtAddr size writing = .ok (result, m') ∧
      m.Outcome virtAddr size writing result m' := by
  unfold translate
  by_cases hal : Misaligned virtAddr size
  · exact ⟨_, _, if_pos hal, .misaligned hal⟩
  rw [if_neg hal]
  cases htlb : m.tlb with
  | none =>
    cases htable : m.pageTable with
    | none => simp [htlb, htable] at hone
    | some table =>
      dsimp only
      by_cases hge : m.pageTableSize ≤ pageOf virtAddr
      · exact ⟨_, _, if_pos hge, .pastEnd hal htlb hge⟩
      rw [if_neg hge]
      cases hvalid : (table (pageOf virtAddr)).valid with
      | false =>
        refine ⟨_, _, rfl, .missing hal fun entry e hfinds => ?_⟩
        cases hfinds with
        | tlb htlb' => simp [htlb] at htlb'
        | pageTable htable' _ hvalid' =>
          rw [htable] at htable'
          cases htable'
          simp [hvalid] at hvalid'
      | true => exact useEntry_outcome hal hsize (.pageTable htable (by omega) hvalid)
  | some tlb =>
    cases htable : m.pageTable with
    | some table => simp [htlb, htable] at hone
    | none =>
      dsimp only
      cases hfind : findTLB tlb (pageOf virtAddr) with
      | none =>
        refine ⟨_, _, rfl, .missing hal fun entry e hfinds => ?_⟩
        cases hfinds with
        | tlb htlb' hmaps _ =>
          rw [htlb] at htlb'
          cases htlb'
          exact findTLB_none hfind _ hmaps
        | pageTable htable' => simp [htable] at htable'
      | some i =>
        obtain ⟨hmaps, hfirst⟩ := findTLB_some hfind
        exact useEntry_outcome hal hsize (.tlb htlb hmaps hfirst)

/-- **Translation is exact.**  It always ends.  On an exception no entry changes; otherwise the
address is aligned, it is translated through the first valid entry of its page, the access lies in
the frame, and that entry alone is marked as used, and as dirty by a write, which it has to
allow. -/
theorem translation_exact (m : MMU c) (hone : m.tlb.isSome ≠ m.pageTable.isSome)
    (virtAddr : BitVec 32) (size : ℕ) (hsize : size = 1 ∨ size = 2 ∨ size = 4) (writing : Bool) :
    ∃ result m', m.translate virtAddr size writing = .ok (result, m') ∧
      (∀ exception, result = .error exception → m' = m) ∧
      ∀ physAddr, result = .ok physAddr → virtAddr.toNat % size = 0 ∧
        ∃ (entry : EntryRef c) (e : TranslationEntry) (f : Fin c.NumPhysPages),
          m.Finds (virtAddr.toNat / PageSize) entry e ∧ e.physicalPage = (f : ℕ) ∧
          physAddr = f * PageSize + virtAddr.toNat % PageSize ∧
          physAddr + size ≤ (f + 1) * PageSize ∧
          (writing = true → e.readOnly = false) ∧
          m' = m.setEntry { e with use := true, dirty := writing || e.dirty } entry := by
  obtain ⟨result, m', hrun, hout⟩ := translate_outcome virtAddr writing hone hsize
  refine ⟨result, m', hrun, ?_, ?_⟩
  · rintro exception rfl
    cases hout <;> rfl
  · rintro physAddr rfl
    cases hout with
    | translated hal hfinds hwrite hframe =>
      refine ⟨toNat_mod_eq_zero hal hsize, _, _, _, hfinds, hframe, rfl, ?_, hwrite, ?_⟩
      · have hin := offsetOf_add_le hal hsize
        unfold PageSize at *
        omega
      · cases writing <;> rfl

/-- A machine with a page table: its two pages are in frames 1 and 2. -/
def twoPages : MMU machineH where
  tlb := none
  pageTable := some fun vpn => ⟨vpn, vpn + 1, true, false, false, false⟩
  pageTableSize := 2

theorem translation_exact_twoPages :
    twoPages.tlb.isSome ≠ twoPages.pageTable.isSome ∧
      ∃ m', twoPages.translate 130 2 true = .ok (.ok 258, m') ∧
        ∃ (entry : EntryRef machineH) (e : TranslationEntry), twoPages.Finds 1 entry e ∧
          m' = twoPages.setEntry { e with use := true, dirty := true } entry := by
  have hone : twoPages.tlb.isSome ≠ twoPages.pageTable.isSome := by decide
  obtain ⟨result, m', hrun, -, hok⟩ := translation_exact twoPages hone 130 2 (by decide) true
  have hphys : result = .ok 258 := by
    have hsame : ((twoPages.translate 130 2 true).toOption.map Prod.fst) = some (.ok 258) := rfl
    rw [hrun] at hsame
    exact Option.some.inj hsame
  obtain ⟨-, entry, e, f, hfinds, -, -, -, -, hm⟩ := hok 258 hphys
  exact ⟨hone, m', hphys ▸ hrun, entry, e, hfinds, hm⟩

end MMU

/-! ### The virtual memory build -/

/-- The tables of the virtual memory build: there is no `pageTable`. -/
def VM.mmu (s : VM c) : MMU c := ⟨some s.tlb, none, 0⟩

/-- `translate` is `Translate` of a machine with a TLB. -/
theorem translate_eq_mmu (virtAddr : BitVec 32) (size : ℕ) (writing : Bool) (s : VM c) :
    (translate virtAddr size writing s).map (fun p => (p.1, p.2.mmu)) =
      (s.mmu.translate virtAddr size writing).mapError fun _ => Fault.physAddrRange := by
  unfold translate MMU.translate
  by_cases hal : Misaligned virtAddr size
  · rw [if_pos hal, if_pos hal]
    rfl
  rw [if_neg hal, if_neg hal]
  simp only [VM.mmu, MMU.findTLB]
  cases (List.finRange c.TLBSize).find? fun i =>
      (s.tlb i).valid && (s.tlb i).virtualPage == (pageOf virtAddr : ℤ) with
  | none => rfl
  | some i =>
    simp only [MMU.useEntry]
    split_ifs <;> rfl

end Nachos
