import Nachos.VM.LoadSpec

/-!
# Memory accesses of a user program

`Translate`, `ReadMem`, `WriteMem`, `SafeReadMem` and `SafeWriteMem` of `machine/translate.cc` for a
machine with a TLB, `RaiseException` of `machine/machine.cc`, and the part of `ExceptionHandler` of
`userprog/exception.cc` that serves the exceptions of `Translate`.

* The host is little endian, so that `ShortToHost`, `WordToHost` and their inverses are the
  identity; `mainMemory` is an array of (signed) `char`.
* `ReadMem` returns `none` and `WriteMem` returns `false` when the access has to be tried again.
* `translate_spec` gives the three outcomes of `Translate` under the frame ownership invariant: an
  alignment error, a TLB miss, or a physical address in the frame of the page.
-/

namespace Nachos

open Function

variable {c : Sizes} {A : Alias}

/-- The page of a virtual address: `(unsigned) virtAddr / PageSize`. -/
def pageOf (virtAddr : BitVec 32) : ℕ := virtAddr.toNat / PageSize

/-- The offset in the page: `(unsigned) virtAddr % PageSize`. -/
def offsetOf (virtAddr : BitVec 32) : ℕ := virtAddr.toNat % PageSize

/-- The alignment check of `Translate`. -/
def Misaligned (virtAddr : BitVec 32) (size : ℕ) : Prop :=
  (size = 4 ∧ virtAddr &&& 3 ≠ 0) ∨ (size = 2 ∧ virtAddr &&& 1 ≠ 0)
  deriving Decidable

/-- `Machine::Translate`: an exception, or the physical address. -/
def translate (virtAddr : BitVec 32) (size : ℕ) (writing : Bool) (s : VM c) :
    Except Fault (Except ExceptionType ℕ × VM c) :=
  if Misaligned virtAddr size then .ok (.error .addressErrorException, s)
  else
    match (List.finRange c.TLBSize).find? fun i =>
        (s.tlb i).valid && (s.tlb i).virtualPage == (pageOf virtAddr : ℤ) with
    | none => .ok (.error .pageFaultException, s)
    | some i =>
      let entry := s.tlb i
      if entry.readOnly && writing then .ok (.error .readOnlyException, s)
      -- `pageFrame` is unsigned: a negative number is a large frame
      else if 0 ≤ entry.physicalPage ∧ entry.physicalPage < c.NumPhysPages then
        let s := s.setTLB i
          { entry with use := true, dirty := if writing then true else entry.dirty }
        let physAddr := entry.physicalPage.toNat * PageSize + offsetOf virtAddr
        if physAddr + size ≤ c.NumPhysPages * PageSize then .ok (.ok physAddr, s)
        else .error .physAddrRange
      else .ok (.error .busErrorException, s)

/-- `ExceptionHandler` on an exception of `Translate`: a page fault is served by the current
space, the other exceptions end the run. -/
def exceptionHandler (which : ExceptionType) (s : VM c) : Except Fault (VM c) :=
  match which, s.current with
  | .pageFaultException, some sp => load sp (pageOf s.BadVAddrReg) s
  | .pageFaultException, none => .error .wildAccess
  | which, _ => .error (.exception which)

/-- `Machine::RaiseException`. -/
def raiseException (which : ExceptionType) (badVAddr : BitVec 32) (s : VM c) :
    Except Fault (VM c) :=
  exceptionHandler which { s with BadVAddrReg := badVAddr }

/-- The value that `ReadMem` gets from memory at `physAddr`. -/
def readValue (mem : ℕ → Byte) (physAddr : ℕ) : ℕ → Except Fault (BitVec 32)
  | 1 => .ok ((mem physAddr).signExtend 32)
  | 2 => .ok ((mem (physAddr + 1) ++ mem physAddr).setWidth 32)
  | 4 => .ok (mem (physAddr + 3) ++ mem (physAddr + 2) ++ mem (physAddr + 1) ++ mem physAddr)
  | _ => .error .accessSize

/-- Byte `k` of a value, the least significant first. -/
def byteOf (value : BitVec 32) (k : ℕ) : Byte := value.extractLsb' (8 * k) 8

/-- Memory after the low `size` bytes of `value` were stored at `physAddr`. -/
def storeBytes (mem : ℕ → Byte) (physAddr size : ℕ) (value : BitVec 32) : ℕ → Byte := fun a =>
  if physAddr ≤ a ∧ a < physAddr + size then byteOf value (a - physAddr) else mem a

/-- Memory after `WriteMem` has stored `value` at `physAddr`. -/
def writeValue (mem : ℕ → Byte) (physAddr : ℕ) (value : BitVec 32) : ℕ → Except Fault (ℕ → Byte)
  | 1 => .ok (storeBytes mem physAddr 1 value)
  | 2 => .ok (storeBytes mem physAddr 2 value)
  | 4 => .ok (storeBytes mem physAddr 4 value)
  | _ => .error .accessSize

/-- `Machine::ReadMem`. -/
def readMem (addr : BitVec 32) (size : ℕ) (s : VM c) :
    Except Fault (Option (BitVec 32) × VM c) := do
  match ← translate addr size false s with
  | (.error exception, s) => return (none, ← raiseException exception addr s)
  | (.ok physAddr, s) => return (some (← readValue s.mainMemory physAddr size), s)

/-- `Machine::WriteMem`. -/
def writeMem (addr : BitVec 32) (size : ℕ) (value : BitVec 32) (s : VM c) :
    Except Fault (Bool × VM c) := do
  match ← translate addr size true s with
  | (.error exception, s) => return (false, ← raiseException exception addr s)
  | (.ok physAddr, s) =>
    return (true, { s with mainMemory := ← writeValue s.mainMemory physAddr value size })

/-- `Machine::SafeReadMem`. -/
def safeReadMem (addr : BitVec 32) (size : ℕ) : ℕ → VM c → Except Fault (BitVec 32 × VM c)
  | 0, _ => .error .diverged
  | fuel + 1, s => do
    match ← readMem addr size s with
    | (some value, s) => return (value, s)
    | (none, s) => safeReadMem addr size fuel s

/-- `Machine::SafeWriteMem`. -/
def safeWriteMem (addr : BitVec 32) (size : ℕ) (value : BitVec 32) :
    ℕ → VM c → Except Fault (VM c)
  | 0, _ => .error .diverged
  | fuel + 1, s => do
    match ← writeMem addr size value s with
    | (true, s) => return s
    | (false, s) => safeWriteMem addr size value fuel s

/-! ### Reads and writes alike -/

/-- Read (`w = none`) or write `size` bytes at `physAddr`. -/
def accessBytes (w : Option (BitVec 32)) (mem : ℕ → Byte) (physAddr size : ℕ) :
    Except Fault (BitVec 32 × (ℕ → Byte)) :=
  match w with
  | none => (readValue mem physAddr size).map fun value => (value, mem)
  | some value => (writeValue mem physAddr value size).map fun mem => (value, mem)

/-- `ReadMem` (`w = none`) or `WriteMem` of `w`. -/
def accessMem (w : Option (BitVec 32)) (addr : BitVec 32) (size : ℕ) (s : VM c) :
    Except Fault (Option (BitVec 32) × VM c) := do
  match ← translate addr size w.isSome s with
  | (.error exception, s) => return (none, ← raiseException exception addr s)
  | (.ok physAddr, s) =>
    let (value, mem) ← accessBytes w s.mainMemory physAddr size
    return (some value, { s with mainMemory := mem })

/-- `SafeReadMem` (`w = none`) or `SafeWriteMem` of `w`. -/
def safeAccess (w : Option (BitVec 32)) (addr : BitVec 32) (size : ℕ) :
    ℕ → VM c → Except Fault (BitVec 32 × VM c)
  | 0, _ => .error .diverged
  | fuel + 1, s => do
    match ← accessMem w addr size s with
    | (some value, s) => return (value, s)
    | (none, s) => safeAccess w addr size fuel s

section Alike

variable (addr : BitVec 32) (size : ℕ) (value : BitVec 32) (s : VM c)

theorem readMem_eq : readMem addr size s = accessMem none addr size s := by
  simp only [readMem, accessMem, Option.isSome_none, bind, Except.bind]
  rcases translate addr size false s with e | ⟨_ | physAddr, s⟩
  · rfl
  · rfl
  · simp only [accessBytes]
    cases readValue s.mainMemory physAddr size <;> rfl

theorem writeMem_eq : writeMem addr size value s =
    (accessMem (some value) addr size s).map fun p => (p.1.isSome, p.2) := by
  simp only [writeMem, accessMem, Option.isSome_some, bind, Except.bind]
  rcases translate addr size true s with e | ⟨exception | physAddr, s⟩
  · rfl
  · simp only
    cases raiseException exception addr s <;> rfl
  · simp only [accessBytes]
    cases writeValue s.mainMemory physAddr value size <;> rfl

theorem safeReadMem_eq (fuel : ℕ) :
    safeReadMem addr size fuel s = safeAccess none addr size fuel s := by
  induction fuel generalizing s with
  | zero => rfl
  | succ fuel ih =>
    simp only [safeReadMem, safeAccess, readMem_eq, bind, Except.bind]
    rcases accessMem none addr size s with e | ⟨_ | value, s⟩
    · rfl
    · exact ih s
    · rfl

theorem safeWriteMem_eq (fuel : ℕ) : safeWriteMem addr size value fuel s =
    (safeAccess (some value) addr size fuel s).map fun p => p.2 := by
  induction fuel generalizing s with
  | zero => rfl
  | succ fuel ih =>
    simp only [safeWriteMem, safeAccess, writeMem_eq, bind, Except.bind]
    rcases accessMem (some value) addr size s with e | ⟨_ | value, s⟩
    · rfl
    · exact ih s
    · rfl

end Alike

/-! ### Bytes of a value -/

theorem byte_zero_append {n : ℕ} (x : BitVec n) (b : Byte) : (x ++ b).extractLsb' 0 8 = b := by
  apply BitVec.eq_of_getLsbD_eq
  intro j hj
  simp [BitVec.getLsbD_append, hj]

theorem byte_succ_append {n : ℕ} (x : BitVec n) (b : Byte) (k : ℕ) :
    (x ++ b).extractLsb' (8 * (k + 1)) 8 = x.extractLsb' (8 * k) 8 := by
  apply BitVec.eq_of_getLsbD_eq
  intro j hj
  have h1 : ¬ 8 * (k + 1) + j < 8 := by omega
  have h2 : 8 * (k + 1) + j - 8 = 8 * k + j := by omega
  simp only [BitVec.getLsbD_extractLsb', BitVec.getLsbD_append, hj, h1, h2]
  simp

theorem byte_setWidth {n k : ℕ} (x : BitVec n) (hk : k < 4) :
    (x.setWidth 32).extractLsb' (8 * k) 8 = x.extractLsb' (8 * k) 8 := by
  apply BitVec.eq_of_getLsbD_eq
  intro j hj
  have h1 : 8 * k + j < 32 := by omega
  simp [hj, h1]

theorem byte_zero_signExtend (b : Byte) : (b.signExtend 32).extractLsb' 0 8 = b := by
  apply BitVec.eq_of_getLsbD_eq
  intro j hj
  have h1 : j < 32 := by omega
  rw [BitVec.getLsbD_extractLsb', BitVec.getLsbD_signExtend]
  simp [hj, h1]

theorem byteOf_zero (value : BitVec 32) : byteOf value 0 = value.setWidth 8 := by
  apply BitVec.eq_of_getLsbD_eq
  intro j hj
  simp [byteOf, hj]

theorem byteOf_readValue {mem : ℕ → Byte} {physAddr size : ℕ} {value : BitVec 32}
    (h : readValue mem physAddr size = .ok value) {k : ℕ} (hk : k < size) :
    byteOf value k = mem (physAddr + k) := by
  unfold readValue at h
  split at h
  · cases h
    obtain rfl : k = 0 := by omega
    exact byte_zero_signExtend _
  · cases h
    rw [byteOf, byte_setWidth _ (by omega)]
    match k, hk with
    | 0, _ => exact byte_zero_append (mem (physAddr + 1)) _
    | 1, _ =>
      refine (byte_succ_append (mem (physAddr + 1)) _ 0).trans ?_
      simp
  · cases h
    rw [byteOf]
    match k, hk with
    | 0, _ => exact byte_zero_append _ _
    | 1, _ => exact (byte_succ_append _ _ 0).trans (byte_zero_append _ _)
    | 2, _ =>
      exact (byte_succ_append _ _ 1).trans ((byte_succ_append _ _ 0).trans (byte_zero_append _ _))
    | 3, _ =>
      refine (byte_succ_append _ _ 2).trans ((byte_succ_append _ _ 1).trans
        ((byte_succ_append (mem (physAddr + 3)) _ 0).trans ?_))
      simp
  · cases h

theorem readValue_isOk (mem : ℕ → Byte) (physAddr size : ℕ) :
    (∃ value, readValue mem physAddr size = .ok value) ∧ (size = 1 ∨ size = 2 ∨ size = 4) ∨
      readValue mem physAddr size = .error .accessSize ∧ ¬ (size = 1 ∨ size = 2 ∨ size = 4) := by
  unfold readValue
  split
  · exact Or.inl ⟨⟨_, rfl⟩, by omega⟩
  · exact Or.inl ⟨⟨_, rfl⟩, by omega⟩
  · exact Or.inl ⟨⟨_, rfl⟩, by omega⟩
  · exact Or.inr ⟨rfl, by tauto⟩

theorem writeValue_eq (mem : ℕ → Byte) (physAddr : ℕ) (value : BitVec 32) (size : ℕ) :
    writeValue mem physAddr value size = if size = 1 ∨ size = 2 ∨ size = 4 then
      .ok (storeBytes mem physAddr size value) else .error .accessSize := by
  unfold writeValue
  split
  · rfl
  · rfl
  · rfl
  · rw [if_neg (by tauto)]

/-- The two outcomes of reading or writing memory. -/
theorem accessBytes_cases (w : Option (BitVec 32)) (mem : ℕ → Byte) (physAddr size : ℕ) :
    (∃ value, accessBytes w mem physAddr size = .ok (value, match w with
        | none => mem
        | some value => storeBytes mem physAddr size value) ∧
      (size = 1 ∨ size = 2 ∨ size = 4) ∧
      (w = none → readValue mem physAddr size = .ok value)) ∨
    accessBytes w mem physAddr size = .error .accessSize ∧
      ¬ (size = 1 ∨ size = 2 ∨ size = 4) := by
  cases w with
  | none =>
    rcases readValue_isOk mem physAddr size with ⟨⟨value, hval⟩, hs⟩ | ⟨hval, hs⟩
    · exact Or.inl ⟨value, by simp only [accessBytes, hval, Except.map], hs, fun _ => hval⟩
    · exact Or.inr ⟨by simp only [accessBytes, hval, Except.map], hs⟩
  | some value =>
    simp only [accessBytes, writeValue_eq]
    by_cases hs : size = 1 ∨ size = 2 ∨ size = 4
    · rw [if_pos hs]
      exact Or.inl ⟨value, rfl, hs, fun h => by cases h⟩
    · rw [if_neg hs]
      exact Or.inr ⟨rfl, hs⟩

/-- An address is its page and its offset. -/
theorem toNat_eq (addr : BitVec 32) : addr.toNat = pageOf addr * PageSize + offsetOf addr := by
  unfold pageOf offsetOf
  rw [Nat.mul_comm]
  exact (Nat.div_add_mod _ _).symm

theorem pageOf_lt {numPages : ℕ} {addr : BitVec 32} (h : addr.toNat < numPages * PageSize) :
    pageOf addr < numPages :=
  Nat.div_lt_of_lt_mul (by rw [Nat.mul_comm]; exact h)

/-- The alignment check is that of the address modulo the size. -/
theorem toNat_mod_eq_zero {addr : BitVec 32} {size : ℕ} (h : ¬ Misaligned addr size)
    (hs : size = 1 ∨ size = 2 ∨ size = 4) : addr.toNat % size = 0 := by
  have hand : ∀ m : BitVec 32, (addr &&& m).toNat = addr.toNat &&& m.toNat :=
    fun m => BitVec.toNat_and ..
  rcases hs with rfl | rfl | rfl
  · exact Nat.mod_one _
  · by_contra hne
    refine h (Or.inr ⟨rfl, fun h0 => hne ?_⟩)
    have := congrArg BitVec.toNat h0
    rw [hand] at this
    simpa [Nat.and_two_pow_sub_one_eq_mod _ 1] using this
  · by_contra hne
    refine h (Or.inl ⟨rfl, fun h0 => hne ?_⟩)
    have := congrArg BitVec.toNat h0
    rw [hand] at this
    simpa [Nat.and_two_pow_sub_one_eq_mod _ 2] using this

/-- An aligned access lies in one page. -/
theorem offsetOf_add_le {addr : BitVec 32} {size : ℕ} (h : ¬ Misaligned addr size)
    (hs : size = 1 ∨ size = 2 ∨ size = 4) : offsetOf addr + size ≤ PageSize := by
  have hmod := toNat_mod_eq_zero h hs
  unfold offsetOf PageSize
  rcases hs with rfl | rfl | rfl <;> omega

/-! ### The outcomes of an access -/

/-- TLB entry `i` after a hit. -/
def VM.touch (s : VM c) (i : Fin c.TLBSize) (writing : Bool) : VM c :=
  s.setTLB i { s.tlb i with
    use := true, dirty := if writing then true else (s.tlb i).dirty }

/-- Every valid TLB entry has a frame and may be written. -/
def TLBSound (s : VM c) : Prop :=
  ∀ i, (s.tlb i).valid = true → (s.tlb i).readOnly = false ∧
    ∃ f : Fin c.NumPhysPages, (s.tlb i).physicalPage = (f : ℕ)

theorem FramesUpTo.tlbSound {s : VM c} (h : FramesUpTo A none s) : TLBSound s := by
  intro i hi
  obtain ⟨sp, v, -, hE, hval, -, hpp, hro⟩ := h.tlb i hi
  obtain ⟨f, -, -, hf, -, -⟩ := h.owner _ hE hval
  exact ⟨hro, f, hpp.trans hf⟩

/-- The outcomes of `Translate`. -/
theorem TLBSound.translate_cases {s : VM c} (h : TLBSound s) (addr : BitVec 32) (size : ℕ)
    (writing : Bool) :
    (translate addr size writing s = .ok (.error .addressErrorException, s) ∧
      Misaligned addr size) ∨
    (translate addr size writing s = .ok (.error .pageFaultException, s) ∧
      ∀ i, ¬ s.Maps i (pageOf addr)) ∨
    ∃ (i : Fin c.TLBSize) (f : Fin c.NumPhysPages), ¬ Misaligned addr size ∧
      s.Maps i (pageOf addr) ∧ (s.tlb i).physicalPage = (f : ℕ) ∧
      (translate addr size writing s =
          .ok (.ok (f * PageSize + offsetOf addr), s.touch i writing) ∨
        translate addr size writing s = .error .physAddrRange ∧
          PageSize < offsetOf addr + size) := by
  unfold translate
  by_cases hal : Misaligned addr size
  · exact Or.inl ⟨by rw [if_pos hal], hal⟩
  simp only [if_neg hal]
  cases hfind : (List.finRange c.TLBSize).find? fun i =>
      (s.tlb i).valid && (s.tlb i).virtualPage == (pageOf addr : ℤ) with
  | none =>
    refine Or.inr (Or.inl ⟨rfl, ?_⟩)
    intro i hm
    have := List.find?_eq_none.1 hfind i (List.mem_finRange i)
    simp [hm.1, hm.2] at this
  | some i =>
    have hm : s.Maps i (pageOf addr) := by
      simpa only [VM.Maps, Bool.and_eq_true, beq_iff_eq] using List.find?_some hfind
    obtain ⟨hro, f, hf⟩ := h i hm.1
    have hlt := f.isLt
    refine Or.inr (Or.inr ⟨i, f, hal, hm, hf, ?_⟩)
    have hrange : 0 ≤ (s.tlb i).physicalPage ∧ (s.tlb i).physicalPage < c.NumPhysPages := by
      omega
    have hwrite : ¬ ((s.tlb i).readOnly && writing) = true := by simp [hro]
    have hframe : (s.tlb i).physicalPage.toNat = f := by omega
    simp only [if_neg hwrite, if_pos hrange, hframe]
    by_cases hle : f * PageSize + offsetOf addr + size ≤ c.NumPhysPages * PageSize
    · exact Or.inl (by rw [if_pos hle]; rfl)
    · refine Or.inr ⟨by rw [if_neg hle], ?_⟩
      unfold PageSize at *
      omega

/-- **The outcomes of `Translate`** under the frame ownership invariant. -/
theorem translate_spec {s : VM c} (h : FramesUpTo A none s) (addr : BitVec 32) (size : ℕ)
    (writing : Bool) :
    (translate addr size writing s = .ok (.error .addressErrorException, s) ∧
      Misaligned addr size) ∨
    (translate addr size writing s = .ok (.error .pageFaultException, s) ∧
      ∀ i, ¬ s.Maps i (pageOf addr)) ∨
    ∃ i sp f, ¬ Misaligned addr size ∧ s.Maps i (pageOf addr) ∧ s.current = some sp ∧
      s.HasEntry ⟨sp, pageOf addr⟩ ∧ (s.pageTable ⟨sp, pageOf addr⟩).valid = true ∧
      (s.pageTable ⟨sp, pageOf addr⟩).physicalPage = ((f : Fin c.NumPhysPages) : ℕ) ∧
      (translate addr size writing s =
          .ok (.ok (f * PageSize + offsetOf addr), s.touch i writing) ∨
        translate addr size writing s = .error .physAddrRange ∧
          PageSize < offsetOf addr + size) := by
  rcases h.tlbSound.translate_cases addr size writing with ht | ht | ⟨i, f, hal, hm, hf, ht⟩
  · exact Or.inl ht
  · exact Or.inr (Or.inl ht)
  · obtain ⟨sp, v, hc, hE, hval, hvp, hpp, -⟩ := h.tlb i hm.1
    obtain rfl : v = pageOf addr := by have := hm.2; omega
    exact Or.inr (Or.inr ⟨i, sp, f, hal, hm, hc, hE, hval, hpp.symm.trans hf, ht⟩)

/-- The result of an access to `addr` by the current space `sp`: the page was loaded, or memory
was read (`w = none`) or written. -/
inductive Accessed (sp : ℕ) (addr : BitVec 32) (size : ℕ) (w : Option (BitVec 32)) (s : VM c) :
    VM c → Prop
  | miss (s' : VM c) (hno : ∀ i, ¬ s.Maps i (pageOf addr))
    (hl : Loaded sp (pageOf addr) { s with BadVAddrReg := addr } s') :
    Accessed sp addr size w s s'
  | hit (i : Fin c.TLBSize) (f : Fin c.NumPhysPages) (hm : s.Maps i (pageOf addr))
    (hv : (s.pageTable ⟨sp, pageOf addr⟩).valid = true)
    (hp : (s.pageTable ⟨sp, pageOf addr⟩).physicalPage = (f : ℕ))
    (hs : offsetOf addr + size ≤ PageSize) :
    Accessed sp addr size w s { s.touch i w.isSome with
      mainMemory := match w with
        | none => s.mainMemory
        | some value => storeBytes s.mainMemory (f * PageSize + offsetOf addr) size value }

/-- The conditions under which an access by address space `sp` ends the run. -/
def AccessFault (s : VM c) (sp : ℕ) (addr : BitVec 32) (size : ℕ) (e : Fault) : Prop :=
  LoadFault s ⟨sp, pageOf addr⟩ e ∨ e = .exception .addressErrorException ∧ Misaligned addr size ∨
    e = .physAddrRange ∧ PageSize < offsetOf addr + size ∨
    e = .accessSize ∧ ¬ (size = 1 ∨ size = 2 ∨ size = 4)

theorem FramesUpTo.hit {s : VM c} (h : FramesUpTo A none s) (i : Fin c.TLBSize) (writing : Bool)
    (mem : ℕ → Byte) : FramesUpTo A none { s.touch i writing with mainMemory := mem } where
  bit := h.bit
  bit_hole := h.bit_hole
  ipt := h.ipt
  owner := h.owner
  vpage := h.vpage
  writable := h.writable
  tlb j hj := by
    by_cases hji : j = i
    · subst hji
      simp only [VM.touch, VM.setTLB, update_self] at hj ⊢
      exact h.tlb j hj
    · simp only [VM.touch, VM.setTLB, update_of_ne hji] at hj ⊢
      exact h.tlb j hj
  tlb_inj j k v hj hk := by
    have hmaps : ∀ j, ({ s.touch i writing with mainMemory := mem } : VM c).Maps j v →
        s.Maps j v := by
      intro j hj
      by_cases hji : j = i
      · subst hji
        simpa only [VM.Maps, VM.touch, VM.setTLB, update_self] using hj
      · simpa only [VM.Maps, VM.touch, VM.setTLB, update_of_ne hji] using hj
    exact h.tlb_inj j k v (hmaps j hj) (hmaps k hk)

/-- Serving a TLB miss of the current space. -/
theorem raiseException_pageFault {s : VM c} (h : FramesUpTo A none s) {sp : ℕ} {addr : BitVec 32}
    (hsolo : SoloVictim A s ⟨sp, pageOf addr⟩) (hc : s.current = some sp)
    (hE : s.HasEntry ⟨sp, pageOf addr⟩) (hno : ∀ i, ¬ s.Maps i (pageOf addr)) :
    (∃ s', raiseException .pageFaultException addr s = .ok s' ∧
      Loaded sp (pageOf addr) { s with BadVAddrReg := addr } s' ∧ FramesUpTo A none s') ∨
      ∃ e, raiseException .pageFaultException addr s = .error e ∧
        LoadFault s ⟨sp, pageOf addr⟩ e := by
  have hF : FramesUpTo A none { s with BadVAddrReg := addr } := { h with }
  have heq : raiseException .pageFaultException addr s =
      load sp (pageOf addr) { s with BadVAddrReg := addr } := by
    simp only [raiseException, exceptionHandler, hc]
  rw [heq]
  exact load_spec hF hsolo hc hE hno

/-- The access of `size` bytes at `addr` is aligned. -/
def Aligned (addr : BitVec 32) (size : ℕ) : Prop :=
  (size = 1 ∨ size = 2 ∨ size = 4) ∧ ¬ Misaligned addr size

theorem aligned_byte (addr : BitVec 32) : Aligned addr 1 :=
  ⟨Or.inl rfl, by rintro (⟨h, -⟩ | ⟨h, -⟩) <;> cases h⟩

/-- The value is in memory at `addr`. -/
def ValueAt (s : VM c) (sp : ℕ) (addr : BitVec 32) (size : ℕ) (value : BitVec 32) : Prop :=
  ∃ f : Fin c.NumPhysPages, (s.pageTable ⟨sp, pageOf addr⟩).valid = true ∧
    (s.pageTable ⟨sp, pageOf addr⟩).physicalPage = (f : ℕ) ∧
    readValue s.mainMemory (f * PageSize + offsetOf addr) size = .ok value

section Memory

variable {s s' : VM c} {addr : BitVec 32} {size : ℕ} {w : Option (BitVec 32)}

/-- An exception of `Translate` is raised, and the access is to be tried again. -/
theorem accessMem_exception {exception : ExceptionType}
    (ht : translate addr size w.isSome s = .ok (.error exception, s)) :
    accessMem w addr size s = (raiseException exception addr s).map fun s' => (none, s') := by
  simp only [accessMem, ht, bind, Except.bind]
  cases raiseException exception addr s <;> rfl

/-- A hit reads or writes memory. -/
theorem accessMem_hit {physAddr : ℕ} {i : Fin c.TLBSize}
    (ht : translate addr size w.isSome s = .ok (.ok physAddr, s.touch i w.isSome)) :
    accessMem w addr size s = (accessBytes w s.mainMemory physAddr size).map fun p =>
      (some p.1, { s.touch i w.isSome with mainMemory := p.2 }) := by
  have hmem : (s.touch i w.isSome).mainMemory = s.mainMemory := rfl
  simp only [accessMem, ht, hmem, bind, Except.bind]
  cases accessBytes w s.mainMemory physAddr size <;> rfl

/-- An aligned access to a page that the TLB maps is translated. -/
theorem TLBSound.translate_mapped (h : TLBSound s) (hal : Aligned addr size) (writing : Bool)
    (hm : ∃ i, s.Maps i (pageOf addr)) :
    ∃ (i : Fin c.TLBSize) (f : Fin c.NumPhysPages), translate addr size writing s =
      .ok (.ok (f * PageSize + offsetOf addr), s.touch i writing) := by
  obtain ⟨hsize, hmis⟩ := hal
  rcases h.translate_cases addr size writing with
    ⟨-, hal⟩ | ⟨-, hno⟩ | ⟨i, f, -, -, -, ht | ⟨-, hbig⟩⟩
  · exact absurd hal hmis
  · obtain ⟨i, hi⟩ := hm
    exact absurd hi (hno i)
  · exact ⟨i, f, ht⟩
  · have hle := offsetOf_add_le hmis hsize
    omega

/-- An aligned access to another page faults. -/
theorem TLBSound.accessMem_unmapped (h : TLBSound s) (hal : Aligned addr size)
    (hno : ¬ ∃ i, s.Maps i (pageOf addr)) : accessMem w addr size s =
      (raiseException .pageFaultException addr s).map fun s' => (none, s') := by
  refine accessMem_exception ?_
  rcases h.translate_cases addr size w.isSome with ⟨-, hmis⟩ | ⟨ht, -⟩ | ⟨i, -, -, hm, -⟩
  · exact absurd hmis hal.2
  · exact ht
  · exact absurd ⟨i, hm⟩ hno

/-- An access to a page that the TLB maps returns. -/
theorem TLBSound.accessMem_mapped (h : TLBSound s) (hal : Aligned addr size)
    (hm : ∃ i, s.Maps i (pageOf addr)) :
    ∃ value s', accessMem w addr size s = .ok (some value, s') := by
  obtain ⟨i, f, ht⟩ := h.translate_mapped hal w.isSome hm
  rw [accessMem_hit ht]
  rcases accessBytes_cases w s.mainMemory (f * PageSize + offsetOf addr) size with
    ⟨value, hval, -⟩ | ⟨-, hs⟩
  · exact ⟨value, _, by rw [hval]; rfl⟩
  · exact absurd hal.1 hs

/-! ### The turns of `SafeReadMem` and `SafeWriteMem` -/

theorem safeAccess_some {value : BitVec 32} (h : accessMem w addr size s = .ok (some value, s'))
    (n : ℕ) : safeAccess w addr size (n + 1) s = .ok (value, s') := by
  rw [safeAccess, h]
  rfl

theorem safeAccess_none (h : accessMem w addr size s = .ok (none, s')) (n : ℕ) :
    safeAccess w addr size (n + 1) s = safeAccess w addr size n s' := by
  rw [safeAccess, h]
  rfl

theorem safeAccess_error {e : Fault} (h : accessMem w addr size s = .error e) (n : ℕ) :
    safeAccess w addr size (n + 1) s = .error e := by
  rw [safeAccess, h]
  rfl

/-! ### The outcomes of an access, under the frame ownership invariant -/

/-- **The outcomes of `ReadMem` and `WriteMem`.** -/
theorem accessMem_spec (h : FramesUpTo A none s) {sp : ℕ} (w : Option (BitVec 32))
    (addr : BitVec 32) (size : ℕ) (hsolo : SoloVictim A s ⟨sp, pageOf addr⟩)
    (hc : s.current = some sp) (hE : s.HasEntry ⟨sp, pageOf addr⟩) :
    (∃ o s', accessMem w addr size s = .ok (o, s') ∧ Accessed sp addr size w s s' ∧
      FramesUpTo A none s' ∧ (o = none ↔ ∀ i, ¬ s.Maps i (pageOf addr)) ∧
      (w = none → ∀ value, o = some value → ValueAt s' sp addr size value)) ∨
      ∃ e, accessMem w addr size s = .error e ∧ AccessFault s sp addr size e := by
  rcases translate_spec h addr size w.isSome with ⟨ht, hal⟩ | ⟨ht, hno⟩ |
    ⟨i, sp', f, hal, hm, hc', -, hv, hp, ht⟩
  · refine Or.inr ⟨.exception .addressErrorException, ?_, Or.inr (Or.inl ⟨rfl, hal⟩)⟩
    rw [accessMem_exception ht]
    rfl
  · rw [accessMem_exception ht]
    rcases raiseException_pageFault h hsolo hc hE hno with ⟨s', hr, hl, hF⟩ | ⟨e, hr, he⟩
    · exact Or.inl ⟨none, s', by rw [hr]; rfl, .miss s' hno hl, hF, by simpa using hno, by simp⟩
    · exact Or.inr ⟨e, by rw [hr]; rfl, Or.inl he⟩
  · rw [hc] at hc'
    cases hc'
    rcases ht with ht | ⟨ht, hbig⟩
    · rw [accessMem_hit ht]
      rcases accessBytes_cases w s.mainMemory (f * PageSize + offsetOf addr) size with
        ⟨value, hval, hs, hread⟩ | ⟨hval, hs⟩
      · refine Or.inl ⟨some value, _, by rw [hval]; rfl,
          .hit i f hm hv hp (offsetOf_add_le hal hs), h.hit i _ _, by simpa using ⟨i, hm⟩, ?_⟩
        rintro rfl value' ⟨⟩
        exact ⟨f, hv, hp, hread rfl⟩
      · exact Or.inr ⟨_, by rw [hval]; rfl, Or.inr (Or.inr (Or.inr ⟨rfl, hs⟩))⟩
    · refine Or.inr ⟨.physAddrRange, ?_, Or.inr (Or.inr (Or.inl ⟨rfl, hbig⟩))⟩
      simp only [accessMem, ht, bind, Except.bind]

/-- An address outside the current space ends the run. -/
theorem accessMem_outside (h : FramesUpTo A none s) (w : Option (BitVec 32)) (size : ℕ)
    (hno : ¬ ∃ sp, s.current = some sp ∧ s.HasEntry ⟨sp, pageOf addr⟩) :
    ∃ e, accessMem w addr size s = .error e ∧
      (e = .wildAccess ∨ e = .exception .addressErrorException) := by
  rcases translate_spec h addr size w.isSome with ⟨ht, -⟩ | ⟨ht, -⟩ |
    ⟨i, sp, f, -, -, hc, hE, -⟩
  · rw [accessMem_exception ht]
    exact ⟨_, rfl, Or.inr rfl⟩
  · rw [accessMem_exception ht]
    refine ⟨.wildAccess, ?_, Or.inl rfl⟩
    cases hc : s.current with
    | none => simp only [raiseException, exceptionHandler, hc, Except.map]
    | some sp =>
      have hle : (s.spaces sp).numPages ≤ pageOf addr :=
        Nat.le_of_not_lt fun hlt => hno ⟨sp, hc, hlt⟩
      simp only [raiseException, exceptionHandler, hc, load, if_pos hle, Except.map]
  · exact absurd ⟨sp, hc, hE⟩ hno

section Outcome

variable (h : FramesUpTo A none s)
  (hsolo : ∀ sp, s.current = some sp → SoloVictim A s ⟨sp, pageOf addr⟩)
include h hsolo

/-- What is known when an access has returned. -/
theorem accessMem_ok {o : Option (BitVec 32)} (hok : accessMem w addr size s = .ok (o, s')) :
    ∃ sp, s.current = some sp ∧ s.HasEntry ⟨sp, pageOf addr⟩ ∧
      Accessed sp addr size w s s' ∧ FramesUpTo A none s' ∧
      (o = none ↔ ∀ i, ¬ s.Maps i (pageOf addr)) ∧
      (w = none → ∀ value, o = some value → ValueAt s' sp addr size value) := by
  by_cases hin : ∃ sp, s.current = some sp ∧ s.HasEntry ⟨sp, pageOf addr⟩
  · obtain ⟨sp, hc, hE⟩ := hin
    rcases accessMem_spec h w addr size (hsolo sp hc) hc hE with
      ⟨o', s₁, heq, hout⟩ | ⟨e, heq, -⟩
    · rw [heq] at hok
      cases hok
      exact ⟨sp, hc, hE, hout⟩
    · rw [heq] at hok
      cases hok
  · obtain ⟨e, heq, -⟩ := accessMem_outside h w size hin
    rw [heq] at hok
    cases hok

theorem accessMem_error {e : Fault} (herr : accessMem w addr size s = .error e) :
    (∃ sp, s.current = some sp ∧ s.HasEntry ⟨sp, pageOf addr⟩ ∧
      AccessFault s sp addr size e) ∨
      e = .wildAccess ∨ e = .exception .addressErrorException := by
  by_cases hin : ∃ sp, s.current = some sp ∧ s.HasEntry ⟨sp, pageOf addr⟩
  · obtain ⟨sp, hc, hE⟩ := hin
    rcases accessMem_spec h w addr size (hsolo sp hc) hc hE with ⟨o, s₁, heq, -⟩ | ⟨e', heq, he⟩
    · rw [heq] at herr
      cases herr
    · rw [heq] at herr
      cases herr
      exact Or.inl ⟨sp, hc, hE, he⟩
  · obtain ⟨e', heq, he⟩ := accessMem_outside h w size hin
    rw [heq] at herr
    cases herr
    exact Or.inr he

end Outcome

end Memory

/-! ### The fields that an access leaves alone -/

/-- `s'` has the address spaces, the running space and the executables of `s`. -/
structure SameSpaces (s s' : VM c) : Prop where
  spaces : s'.spaces = s.spaces
  numSpaces : s'.numSpaces = s.numSpaces
  current : s'.current = s.current
  files : s'.files = s.files

theorem SameSpaces.hasEntry {s s' : VM c} (h : SameSpaces s s') (r : PTRef) :
    s'.HasEntry r ↔ s.HasEntry r := by
  simp only [VM.HasEntry, h.spaces]

theorem SameSpaces.trans {s s' s'' : VM c} (h : SameSpaces s s') (h' : SameSpaces s' s'') :
    SameSpaces s s'' where
  spaces := h'.spaces.trans h.spaces
  numSpaces := h'.numSpaces.trans h.numSpaces
  current := h'.current.trans h.current
  files := h'.files.trans h.files

theorem Entered.sameSpaces {sp vpn : ℕ} {s s' : VM c} (h : Entered sp vpn s s') :
    SameSpaces s s' := by
  cases h with
  | mk x s₁ hr hd => exact ⟨hr.spaces, hr.numSpaces, hr.current, hr.files⟩

theorem Loaded.sameSpaces {sp vpn : ℕ} {s s' : VM c} (h : Loaded sp vpn s s') :
    SameSpaces s s' := by
  cases h with
  | resident s' hv he => exact he.sameSpaces
  | fetched n zero f s₁ s₂ s' hv ha hf he =>
    have h₁ := ha.static
    have h₂ := hf.static
    have h₃ := he.sameSpaces
    exact ⟨h₃.spaces.trans (h₂.1.trans h₁.1), h₃.numSpaces.trans (h₂.2.1.trans h₁.2.1),
      h₃.current.trans (h₂.2.2.1.trans h₁.2.2.1), h₃.files.trans (h₂.2.2.2.1.trans h₁.2.2.2.1)⟩

theorem Accessed.sameSpaces {sp : ℕ} {addr : BitVec 32} {size : ℕ} {w : Option (BitVec 32)}
    {s s' : VM c} (h : Accessed sp addr size w s s') : SameSpaces s s' := by
  cases h with
  | miss s' hno hl => exact ⟨hl.sameSpaces.spaces, hl.sameSpaces.numSpaces,
      hl.sameSpaces.current, hl.sameSpaces.files⟩
  | hit i f hm hv hp hs => exact ⟨rfl, rfl, rfl, rfl⟩

/-- After a miss the TLB maps the page. -/
theorem Loaded.maps {sp vpn : ℕ} {s s' : VM c} (h : Loaded sp vpn s s') (hF' : Frames none s')
    (hE : s.HasEntry ⟨sp, vpn⟩) : ∃ i, s'.Maps i vpn := by
  have key : ∀ s₀ : VM c, (s₀.pageTable ⟨sp, vpn⟩).valid = true → Entered sp vpn s₀ s' →
      ∃ i, s'.Maps i vpn := by
    intro s₀ hv he
    have hE' : s'.HasEntry ⟨sp, vpn⟩ := (h.sameSpaces.hasEntry _).2 hE
    cases he with
    | mk x s₁ hr hd =>
      have hvp : (s₁.pageTable ⟨sp, vpn⟩).virtualPage = vpn := hF'.vpage _ hE'
      refine ⟨x, ?_, ?_⟩
      · simp only [VM.setTLB, update_self]
        rw [hr.valid, hv]
      · simp only [VM.setTLB, update_self]
        exact hvp
  cases h with
  | resident s' hv he => exact key s hv he
  | fetched n zero f s₁ s₂ s' hv ha hf he =>
    exact key _ (by simp) he

/-! ### `SafeReadMem` and `SafeWriteMem` -/

section Safe

variable {sp : ℕ} {s s' : VM c} {addr : BitVec 32} {size : ℕ}

/-- An aligned access in the space has no faults but those of `load`. -/
theorem AccessFault.loadFault {e : Fault} (he : AccessFault s sp addr size e)
    (hal : Aligned addr size) : LoadFault s ⟨sp, pageOf addr⟩ e := by
  rcases he with he | ⟨-, hmis⟩ | ⟨-, hbig⟩ | ⟨-, hsize⟩
  · exact he
  · exact absurd hmis hal.2
  · have hle := offsetOf_add_le hal.2 hal.1
    omega
  · exact absurd hal.1 hsize

/-- The page was in the TLB, or a first turn of the loop has loaded it. -/
inductive SafeAccessed (sp : ℕ) (addr : BitVec 32) (size : ℕ) (w : Option (BitVec 32)) (s : VM c) :
    VM c → Prop
  | mapped (s' : VM c) (hm : ∃ i, s.Maps i (pageOf addr)) (ha : Accessed sp addr size w s s') :
    SafeAccessed sp addr size w s s'
  | loaded (s₁ s' : VM c) (hno : ¬ ∃ i, s.Maps i (pageOf addr))
    (ha₁ : Accessed sp addr size w s s₁) (hF₁ : Frames none s₁)
    (hm : ∃ i, s₁.Maps i (pageOf addr)) (ha : Accessed sp addr size w s₁ s') :
    SafeAccessed sp addr size w s s'

section Spec

variable (hF : Frames none s) (hc : s.current = some sp) (hE : s.HasEntry ⟨sp, pageOf addr⟩)
include hF hc hE

/-- An aligned access returns if the page is in the TLB, and loads it if not. -/
theorem accessMem_aligned (hal : Aligned addr size) (w : Option (BitVec 32)) :
    (∃ o s', accessMem w addr size s = .ok (o, s') ∧ Accessed sp addr size w s s' ∧
      Frames none s' ∧ (o = none → ∃ i, s'.Maps i (pageOf addr)) ∧
      (o = none ↔ ¬ ∃ i, s.Maps i (pageOf addr)) ∧
      (w = none → ∀ value, o = some value → ValueAt s' sp addr size value)) ∨
      ∃ e, accessMem w addr size s = .error e ∧ LoadFault s ⟨sp, pageOf addr⟩ e := by
  rcases accessMem_spec hF w addr size (soloVictim_none _ _) hc hE with
    ⟨o, s', heq, ha, hF', ho, hval⟩ | ⟨e, heq, he⟩
  · refine Or.inl ⟨o, s', heq, ha, hF', fun hn => ?_, by rw [ho, not_exists], hval⟩
    cases ha with
    | miss s' _ hl => exact hl.maps hF' hE
    | hit i f hm _ _ _ => exact absurd hm (ho.1 hn i)
  · exact Or.inr ⟨e, heq, he.loadFault hal⟩

/-- **`SafeReadMem` and `SafeWriteMem` return**, unless an `ASSERT` of `load` fires. -/
theorem safeAccess_spec (hal : Aligned addr size) (w : Option (BitVec 32)) {fuel : ℕ}
    (hfuel : 2 ≤ fuel) :
    (∃ value s', safeAccess w addr size fuel s = .ok (value, s') ∧
      SafeAccessed sp addr size w s s' ∧ Frames none s' ∧
      (w = none → ValueAt s' sp addr size value)) ∨
      ∃ e, safeAccess w addr size fuel s = .error e ∧ LoadFault s ⟨sp, pageOf addr⟩ e := by
  obtain ⟨n, rfl⟩ : ∃ n, fuel = n + 2 := ⟨fuel - 2, by omega⟩
  rcases accessMem_aligned hF hc hE hal w with ⟨o, s₁, heq, ha, hF₁, hmap, ho, hval⟩ | ⟨e, heq, he⟩
  · cases o with
    | some value =>
      have hm := not_not.1 fun hno => by simpa using ho.2 hno
      exact Or.inl ⟨value, s₁, safeAccess_some heq _, .mapped s₁ hm ha, hF₁,
        fun hw => hval hw value rfl⟩
    | none =>
      rw [safeAccess_none heq]
      -- the second turn finds the page in the TLB
      obtain ⟨value, s₂, heq₂⟩ := hF₁.tlbSound.accessMem_mapped (w := w) hal (hmap rfl)
      rcases accessMem_aligned hF₁ (ha.sameSpaces.current.trans hc)
        ((ha.sameSpaces.hasEntry _).2 hE) hal w
        with ⟨o, s', heq', ha', hF', -, -, hval'⟩ | ⟨e, heq', -⟩
      · rw [heq₂] at heq'
        cases heq'
        exact Or.inl ⟨value, s₂, safeAccess_some heq₂ n,
          .loaded s₁ s₂ (ho.1 rfl) ha hF₁ (hmap rfl) ha', hF', fun hw => hval' hw value rfl⟩
      · rw [heq₂] at heq'
        cases heq'
  · exact Or.inr ⟨e, safeAccess_error heq _, he⟩

end Spec

end Safe

end Nachos
