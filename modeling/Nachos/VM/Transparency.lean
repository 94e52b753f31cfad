import Nachos.VM.Content

/-!
# Paging is transparent

A user program sees an array of bytes.  `FlatMemory` is that array, with `none` for the bytes it
has not written yet; `Agrees` says that the outcomes of a sequence of accesses are those of the
array.  `Running flat s` is the refinement relation: the only address space runs in `s`, the tables
are in order, and the bytes of `flat` are where `Content` wants them.

`paging_transparent`: whatever the sequence, `SafeReadMem` and `SafeWriteMem` return, every value
read is that of the array, and the only ways to stop are a full or missing swap file and a missing
executable.
-/

namespace Nachos

variable {c : Sizes}

/-- The bytes of an address space that were written, as a flat array. -/
abbrev FlatMemory := ℕ → Option Byte

/-- Store the low `size` bytes of `value` at `addr`. -/
def FlatMemory.store (flat : FlatMemory) (addr size : ℕ) (value : BitVec 32) : FlatMemory :=
  fun a => if addr ≤ a ∧ a < addr + size then some (byteOf value (a - addr)) else flat a

/-- The array after an access that reads (`none`) or writes. -/
def FlatMemory.after (flat : FlatMemory) (addr : BitVec 32) (size : ℕ) :
    Option (BitVec 32) → FlatMemory
  | none => flat
  | some value => flat.store addr.toNat size value

/-- `value` has, little end first, the bytes at `addr` that were written. -/
def FlatMemory.Reads (flat : FlatMemory) (addr size : ℕ) (value : BitVec 32) : Prop :=
  ∀ k < size, ∀ b, flat (addr + k) = some b → byteOf value k = b

/-- The accesses of a program and of the kernel on its behalf. -/
inductive Access
  | readMem (addr : BitVec 32) (size : ℕ)
  | writeMem (addr : BitVec 32) (size : ℕ) (value : BitVec 32)
  | safeReadMem (addr : BitVec 32) (size : ℕ)
  | safeWriteMem (addr : BitVec 32) (size : ℕ) (value : BitVec 32)

/-- What an access returns; `retry` is the `false` of `ReadMem` and `WriteMem`. -/
inductive Outcome
  | value (value : BitVec 32)
  | stored
  | retry

/-- Perform an access; `fuel` bounds the loops of `SafeReadMem` and `SafeWriteMem`. -/
def Access.exec (fuel : ℕ) : Access → VM c → Except Fault (Outcome × VM c)
  | .readMem addr size, s => (Nachos.readMem addr size s).map fun
    | (some value, s) => (.value value, s)
    | (none, s) => (.retry, s)
  | .writeMem addr size value, s => (Nachos.writeMem addr size value s).map fun
    | (true, s) => (.stored, s)
    | (false, s) => (.retry, s)
  | .safeReadMem addr size, s => (Nachos.safeReadMem addr size fuel s).map fun
    | (value, s) => (.value value, s)
  | .safeWriteMem addr size value, s => (Nachos.safeWriteMem addr size value fuel s).map fun s =>
    (.stored, s)

/-- Perform a sequence of accesses. -/
def runAccesses (fuel : ℕ) : List Access → VM c → Except Fault (List Outcome × VM c)
  | [], s => .ok ([], s)
  | a :: as, s => do
    let (o, s) ← a.exec fuel s
    let (os, s) ← runAccesses fuel as s
    return (o :: os, s)

/-- The outcome of one access on the flat array, and the array after it. -/
inductive FlatStep (flat : FlatMemory) : Access → Outcome → FlatMemory → Prop
  | read (addr size value) (h : flat.Reads addr.toNat size value) :
    FlatStep flat (.readMem addr size) (.value value) flat
  | readRetry (addr size) : FlatStep flat (.readMem addr size) .retry flat
  | write (addr size value) :
    FlatStep flat (.writeMem addr size value) .stored (flat.store addr.toNat size value)
  | writeRetry (addr size value) : FlatStep flat (.writeMem addr size value) .retry flat
  | safeRead (addr size value) (h : flat.Reads addr.toNat size value) :
    FlatStep flat (.safeReadMem addr size) (.value value) flat
  | safeWrite (addr size value) :
    FlatStep flat (.safeWriteMem addr size value) .stored (flat.store addr.toNat size value)

/-- The outcomes of a sequence of accesses are those of the flat array. -/
inductive Agrees : FlatMemory → List Access → List Outcome → Prop
  | nil (flat) : Agrees flat [] []
  | cons {flat flat' a as o os} (h : FlatStep flat a o flat') (hs : Agrees flat' as os) :
    Agrees flat (a :: as) (o :: os)

/-- An aligned access of 1, 2 or 4 bytes below `numPages * PageSize`. -/
def InSpace (numPages : ℕ) (addr : BitVec 32) (size : ℕ) : Prop :=
  (size = 1 ∨ size = 2 ∨ size = 4) ∧ ¬ Misaligned addr size ∧ addr.toNat < numPages * PageSize
  deriving Decidable

/-- The accesses that a program of `numPages` pages may make. -/
def Access.InSpace (numPages : ℕ) : Access → Prop
  | .readMem addr size => Nachos.InSpace numPages addr size
  | .writeMem addr size _ => Nachos.InSpace numPages addr size
  | .safeReadMem addr size => Nachos.InSpace numPages addr size
  | .safeWriteMem addr size _ => Nachos.InSpace numPages addr size

instance (numPages : ℕ) : DecidablePred (Access.InSpace numPages) := fun a => by
  cases a <;> unfold Access.InSpace <;> infer_instance

/-- The flat array, cut into the pages of address space 0. -/
def pages (flat : FlatMemory) : PTRef → ℕ → Option Byte := fun r o =>
  if r.space = 0 ∧ o < PageSize then flat (r.vpn * PageSize + o) else none

/-- The only address space runs, and memory refines the flat array. -/
structure Running (flat : FlatMemory) (numPages : ℕ) (s : VM c) : Prop where
  accounted : Accounted s
  current : s.current = some 0
  size : (s.spaces 0).numPages = numPages
  content : Content (pages flat) s

/-- The `ASSERT`s that may stop a well-behaved program. -/
def OutOfResources (e : Fault) : Prop :=
  e = .swapFull ∨ e = .swapFileMissing ∨ e = .sourceFileMissing

/-! ### Addresses and pages -/

theorem InSpace.page_lt {numPages : ℕ} {addr : BitVec 32} {size : ℕ}
    (h : InSpace numPages addr size) : pageOf addr < numPages :=
  pageOf_lt h.2.2

/-- Writing in the flat array is writing in the page of the address. -/
theorem pages_store (flat : FlatMemory) {addr : BitVec 32} {size : ℕ} (value : BitVec 32)
    (h : offsetOf addr + size ≤ PageSize) :
    pages (flat.store addr.toNat size value) =
      overwrite (pages flat) ⟨0, pageOf addr⟩ (offsetOf addr) size value := by
  funext r o
  obtain ⟨sp, v⟩ := r
  simp only [pages, overwrite, FlatMemory.store, PTRef.mk.injEq]
  rw [toNat_eq addr]
  by_cases ho : sp = 0 ∧ o < PageSize
  · rw [if_pos ho]
    by_cases hv : v = pageOf addr
    · subst hv
      by_cases hin : offsetOf addr ≤ o ∧ o < offsetOf addr + size
      · rw [if_pos (by omega), if_pos ⟨⟨ho.1, rfl⟩, hin⟩]
        congr 2
        omega
      · rw [if_neg (by omega), if_neg (by tauto), if_pos ho]
    · have := page_disjoint hv ho.2
      rw [if_neg (by omega), if_neg (by tauto), if_pos ho]
  · rw [if_neg ho, if_neg ho, if_neg]
    rintro ⟨⟨h0, -⟩, h1⟩
    exact ho ⟨h0, by omega⟩

/-! ### One access -/

section Steps

variable {flat : FlatMemory} {numPages : ℕ} {s : VM c} {addr : BitVec 32} {size : ℕ}

theorem Running.hasEntry (h : Running flat numPages s) (hin : InSpace numPages addr size) :
    s.HasEntry ⟨0, pageOf addr⟩ := by
  show pageOf addr < (s.spaces 0).numPages
  rw [h.size]
  exact hin.page_lt

theorem InSpace.aligned (hin : InSpace numPages addr size) : Aligned addr size :=
  ⟨hin.1, hin.2.1⟩

/-- **An access refines one of the flat array**; when it only loads the page, none. -/
theorem Running.accessed (h : Running flat numPages s) (hin : InSpace numPages addr size)
    {w : Option (BitVec 32)} {s' : VM c} (ha : Accessed 0 addr size w s s') (hF' : Frames none s') :
    (¬ ∃ i, s.Maps i (pageOf addr)) ∧ Running flat numPages s' ∨
    (∃ i, s.Maps i (pageOf addr)) ∧ Running (flat.after addr size w) numPages s' := by
  have hF := h.accounted.frames
  have hE := h.hasEntry hin
  have hnext : ∀ flat', Content (pages flat') s' → Running flat' numPages s' := fun flat' hC =>
    { accounted := ⟨hF', ha.slots hF hE h.accounted.slots, ha.tight hF hE h.accounted.tight⟩
      current := ha.sameSpaces.current.trans h.current
      size := by rw [ha.sameSpaces.spaces, h.size]
      content := hC }
  refine (h.content.accessed ha hF h.accounted.slots h.current hE).imp
    (And.imp_right (hnext flat)) (And.imp_right fun hC => hnext _ ?_)
  cases w with
  | none => exact hC
  | some value =>
    rw [FlatMemory.after, pages_store flat value (offsetOf_add_le hin.2.1 hin.1)]
    exact hC

theorem Running.safeAccessed (h : Running flat numPages s) (hin : InSpace numPages addr size)
    {w : Option (BitVec 32)} {s' : VM c} (ha : SafeAccessed 0 addr size w s s')
    (hF' : Frames none s') : Running (flat.after addr size w) numPages s' := by
  cases ha with
  | mapped s' hm ha => exact ((h.accessed hin ha hF').resolve_left fun hno => hno.1 hm).2
  | loaded s₁ s' hno ha₁ hF₁ hm ha =>
    have h₁ := ((h.accessed hin ha₁ hF₁).resolve_right fun hm => hno hm.1).2
    exact ((h₁.accessed hin ha hF').resolve_left fun hno => hno.1 hm).2

/-- A swapped page has a slot. -/
theorem Running.outOfResources (h : Running flat numPages s) (hin : InSpace numPages addr size)
    {e : Fault} (he : LoadFault s ⟨0, pageOf addr⟩ e) : OutOfResources e := by
  rcases he with rfl | rfl | rfl | ⟨-, hv, hd, hrange⟩
  · exact Or.inl rfl
  · exact Or.inr (Or.inl rfl)
  · exact Or.inr (Or.inr rfl)
  · have hE := h.hasEntry hin
    have hne := (h.accounted.tight.dirty _ hE hv).1 hd
    obtain ⟨k, hk, -⟩ := (h.accounted.slots.slot _ hE hv).resolve_left hne
    have := k.isLt
    omega

/-- The value in memory is that of the flat array. -/
theorem Running.reads (h : Running flat numPages s) (hin : InSpace numPages addr size)
    {value : BitVec 32} (hval : ValueAt s 0 addr size value) :
    flat.Reads addr.toNat size value := by
  obtain ⟨f, hv, hp, hread⟩ := hval
  intro k hk b hb
  have hlt : offsetOf addr + k < PageSize := by
    have := offsetOf_add_le hin.2.1 hin.1
    omega
  rw [byteOf_readValue hread hk, Nat.add_assoc]
  refine h.content.mem _ f _ b (h.hasEntry hin) hv hp hlt ?_
  simp only [pages, hlt, and_self, if_true]
  rw [← hb, toNat_eq addr, Nat.add_assoc]

/-- `ReadMem` and `WriteMem` on a running space. -/
theorem Running.accessMem (h : Running flat numPages s) (hin : InSpace numPages addr size)
    (w : Option (BitVec 32)) :
    (∃ o s', accessMem w addr size s = .ok (o, s') ∧ (o = none ∧ Running flat numPages s' ∨
      ∃ value, o = some value ∧ Running (flat.after addr size w) numPages s' ∧
        (w = none → flat.Reads addr.toNat size value))) ∨
      ∃ e, accessMem w addr size s = .error e ∧ OutOfResources e := by
  rcases accessMem_aligned h.accounted.frames h.current (h.hasEntry hin) hin.aligned w with
    ⟨o, s', heq, ha, hF', -, ho, hval⟩ | ⟨e, heq, he⟩
  · refine Or.inl ⟨o, s', heq, ?_⟩
    rcases h.accessed hin ha hF' with ⟨hno, h'⟩ | ⟨hm, h'⟩
    · exact Or.inl ⟨ho.2 hno, h'⟩
    · obtain ⟨value, rfl⟩ := Option.ne_none_iff_exists'.1 fun hn => ho.1 hn hm
      refine Or.inr ⟨value, rfl, h', ?_⟩
      rintro rfl
      exact h'.reads hin (hval rfl value rfl)
  · exact Or.inr ⟨e, heq, h.outOfResources hin he⟩

/-- `SafeReadMem` and `SafeWriteMem` return. -/
theorem Running.safeAccess (h : Running flat numPages s) (hin : InSpace numPages addr size)
    (w : Option (BitVec 32)) {fuel : ℕ} (hfuel : 2 ≤ fuel) :
    (∃ value s', safeAccess w addr size fuel s = .ok (value, s') ∧
      Running (flat.after addr size w) numPages s' ∧
      (w = none → flat.Reads addr.toNat size value)) ∨
      ∃ e, safeAccess w addr size fuel s = .error e ∧ OutOfResources e := by
  rcases safeAccess_spec h.accounted.frames h.current (h.hasEntry hin) hin.aligned w hfuel with
    ⟨value, s', heq, ha, hF', hval⟩ | ⟨e, heq, he⟩
  · have h' := h.safeAccessed hin ha hF'
    refine Or.inl ⟨value, s', heq, h', ?_⟩
    rintro rfl
    exact h'.reads hin (hval rfl)
  · exact Or.inr ⟨e, heq, h.outOfResources hin he⟩

end Steps

/-- One access of a running space is one step of the flat array. -/
theorem Running.exec {flat : FlatMemory} {numPages fuel : ℕ} {s : VM c}
    (h : Running flat numPages s) (hfuel : 2 ≤ fuel) {a : Access} (ha : a.InSpace numPages) :
    (∃ o s' flat', a.exec fuel s = .ok (o, s') ∧ FlatStep flat a o flat' ∧
      Running flat' numPages s') ∨
      ∃ e, a.exec fuel s = .error e ∧ OutOfResources e := by
  cases a with
  | readMem addr size =>
    simp only [Access.exec, readMem_eq]
    rcases h.accessMem ha none with ⟨o, s', heq, ⟨rfl, h'⟩ | ⟨value, rfl, h', hread⟩⟩ | ⟨e, heq, he⟩
    · exact Or.inl ⟨.retry, s', flat, by rw [heq]; rfl, .readRetry addr size, h'⟩
    · exact Or.inl ⟨.value value, s', flat, by rw [heq]; rfl, .read addr size value (hread rfl), h'⟩
    · exact Or.inr ⟨e, by rw [heq]; rfl, he⟩
  | writeMem addr size value =>
    simp only [Access.exec, writeMem_eq]
    rcases h.accessMem ha (some value) with ⟨o, s', heq, ⟨rfl, h'⟩ | ⟨_, rfl, h', -⟩⟩ | ⟨e, heq, he⟩
    · exact Or.inl ⟨.retry, s', flat, by rw [heq]; rfl, .writeRetry addr size value, h'⟩
    · exact Or.inl ⟨.stored, s', _, by rw [heq]; rfl, .write addr size value, h'⟩
    · exact Or.inr ⟨e, by rw [heq]; rfl, he⟩
  | safeReadMem addr size =>
    simp only [Access.exec, safeReadMem_eq]
    rcases h.safeAccess ha none hfuel with ⟨value, s', heq, h', hread⟩ | ⟨e, heq, he⟩
    · exact Or.inl ⟨.value value, s', flat, by rw [heq]; rfl, .safeRead addr size value (hread rfl),
        h'⟩
    · exact Or.inr ⟨e, by rw [heq]; rfl, he⟩
  | safeWriteMem addr size value =>
    simp only [Access.exec, safeWriteMem_eq]
    rcases h.safeAccess ha (some value) hfuel with ⟨_, s', heq, h', -⟩ | ⟨e, heq, he⟩
    · exact Or.inl ⟨.stored, s', _, by rw [heq]; rfl, .safeWrite addr size value, h'⟩
    · exact Or.inr ⟨e, by rw [heq]; rfl, he⟩

/-- A sequence of accesses of a running space is a run of the flat array. -/
theorem Running.run {flat : FlatMemory} {numPages fuel : ℕ} {s : VM c}
    (h : Running flat numPages s) (hfuel : 2 ≤ fuel) (as : List Access)
    (has : ∀ a ∈ as, a.InSpace numPages) :
    (∃ os s', runAccesses fuel as s = .ok (os, s') ∧ Agrees flat as os) ∨
      ∃ e, runAccesses fuel as s = .error e ∧ OutOfResources e := by
  induction as generalizing flat s with
  | nil => exact Or.inl ⟨[], s, rfl, .nil flat⟩
  | cons a as ih =>
    obtain ⟨ha, has⟩ := List.forall_mem_cons.1 has
    rcases h.exec hfuel ha with ⟨o, s₁, flat₁, heq, hstep, h₁⟩ | ⟨e, heq, he⟩
    · rcases ih h₁ has with ⟨os, s₂, heq₂, hagrees⟩ | ⟨e, heq₂, he⟩
      · refine Or.inl ⟨o :: os, s₂, ?_, .cons hstep hagrees⟩
        simp only [runAccesses, heq, heq₂, bind, Except.bind, pure, Except.pure]
      · refine Or.inr ⟨e, ?_, he⟩
        simp only [runAccesses, heq, heq₂, bind, Except.bind]
    · refine Or.inr ⟨e, ?_, he⟩
      simp only [runAccesses, heq, bind, Except.bind]

theorem Started.running {s : VM c} (h : Started s) :
    Running (fun _ => none) (s.spaces 0).numPages s where
  accounted := h.accounted
  current := by
    obtain ⟨s₀, executable, fn, s₁, fresh, -, -, rfl⟩ := h
    rfl
  size := rfl
  content := by
    have hnone : ∀ r o, pages (fun _ => none) r o = none := by
      intro r o
      simp [pages]
    exact
      { mem := fun r f o b _ _ _ _ hb => by simp [hnone] at hb
        swap := fun r k o b _ _ _ _ hb => by simp [hnone] at hb
        backed := fun r o b _ _ hb => by simp [hnone] at hb }

/-- **Paging is transparent.**  Take an address space that has just been started, and any sequence
of aligned accesses in it.  Unless the swap file is full or missing or the executable cannot be
opened, all accesses return, and every byte read that was written before has the value last
written. -/
theorem paging_transparent {s : VM c} (h : Started s) {fuel : ℕ} (hfuel : 2 ≤ fuel)
    (as : List Access) (has : ∀ a ∈ as, a.InSpace (s.spaces 0).numPages) :
    (∃ os s', runAccesses fuel as s = .ok (os, s') ∧ Agrees (fun _ => none) as os) ∨
      ∃ e, runAccesses fuel as s = .error e ∧ OutOfResources e :=
  h.running.run hfuel as has

/-- Six pages are written, more than there are frames; the first is read back. -/
def sixPages : List Access :=
  [.safeWriteMem 0 4 0x12345678, .safeWriteMem 128 4 1, .safeWriteMem 256 4 2,
    .safeWriteMem 384 4 3, .safeWriteMem 512 4 4, .safeWriteMem 640 4 5, .safeReadMem 0 4]

theorem paging_transparent_sixPages :
    Started smallStart ∧ ∃ os s', runAccesses 2 sixPages smallStart = .ok (os, s') ∧
      Agrees (fun _ => none) sixPages os := by
  have hin : ∀ a ∈ sixPages, a.InSpace (smallStart.spaces 0).numPages := by
    have hsize : (smallStart.spaces 0).numPages = 9 := by decide +kernel
    rw [hsize]
    decide
  refine ⟨smallStart_started, ?_⟩
  rcases paging_transparent smallStart_started (le_refl 2) sixPages hin with h | ⟨e, heq, -⟩
  · exact h
  · have hok : (runAccesses 2 sixPages smallStart).isOk = true := by decide +kernel
    rw [heq] at hok
    cases hok

end Nachos
