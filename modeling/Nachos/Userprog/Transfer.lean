import Mathlib.Data.List.TakeWhile
import Nachos.Userprog.Copy
import Nachos.Userprog.ProgramCounter
import Nachos.VM.Pages
import Nachos.VM.Transparency

/-!
# `Read` and `Write` transfer bytes

The bytes of user memory are those of its pages, wherever they are (`pageByte`): the copy loops of
the handlers read and write them one by one, through the page faults that this takes.  A fault may
drop a page that counts as clean; the loops keep every byte when that is a page which the executable
has (`Lossless`).

* `readBytes_spec`, `writeBytes_spec`: the loops, by induction on the bytes.
* `nachosWrite_eq`: what `Nachos_Write` hands over to the host is `hostArgument`: for the console a
  string, which ends at the first NUL, for a file `size` bytes.
* `nachosRead`: what it stores is what it got, but from the console only the bytes before the first
  NUL, and after the end of input the bytes 0xFF that `getchar` returns then.
* `transfer_unchanged_iff`: when the bytes are transferred unchanged.
-/

namespace Nachos

open Fallible

variable {c : Sizes}

/-! ### The bytes of a space -/

/-- Byte `a` of the address space `sp`. -/
def byteAt (spec : PTRef → ℕ → Option Byte) (sp a : ℕ) : Option Byte :=
  spec ⟨sp, a / PageSize⟩ (a % PageSize)

/-- `spec` after `bytes` were stored at `a` in the address space `sp`. -/
def storeAll (spec : PTRef → ℕ → Option Byte) (sp a : ℕ) (bytes : List Byte) :
    PTRef → ℕ → Option Byte := fun r o =>
  if r.space = sp ∧ o < PageSize ∧ a ≤ r.vpn * PageSize + o ∧
      r.vpn * PageSize + o < a + bytes.length then
    bytes[r.vpn * PageSize + o - a]?
  else spec r o

/-- The `n` bytes at `buf` are bytes of a space of `numPages` pages. -/
def BufferIn (numPages : ℕ) (buf : BitVec 32) (n : ℕ) : Prop :=
  buf.toNat + n ≤ numPages * PageSize ∧ buf.toNat + n ≤ 2 ^ 32

variable {buf : BitVec 32}

theorem BufferIn.page_lt {numPages n : ℕ} (h : BufferIn numPages buf (n + 1)) :
    pageOf buf < numPages := by
  have h1 := h.1
  exact pageOf_lt (by omega)

theorem BufferIn.tail {numPages n : ℕ} (h : BufferIn numPages buf (n + 1)) :
    BufferIn numPages (buf + 1) n ∧ (n = 0 ∨ (buf + 1).toNat = buf.toNat + 1) := by
  obtain ⟨h1, h2⟩ := h
  have hadd : (buf + 1).toNat = (buf.toNat + 1) % 2 ^ 32 := by
    rw [BitVec.toNat_add]
    rfl
  have hle : (buf.toNat + 1) % 2 ^ 32 ≤ buf.toNat + 1 := Nat.mod_le ..
  refine ⟨⟨by omega, by omega⟩, ?_⟩
  by_cases hn : n = 0
  · exact Or.inl hn
  · refine Or.inr ?_
    rw [hadd]
    exact Nat.mod_eq_of_lt (by omega)

theorem storeAll_nil (spec : PTRef → ℕ → Option Byte) (sp a : ℕ) :
    storeAll spec sp a [] = spec := by
  funext r o
  unfold storeAll
  rw [if_neg (by simp)]

/-- The first byte goes to its page, the others behind it. -/
theorem storeAll_cons (spec : PTRef → ℕ → Option Byte) (sp : ℕ) (buf : BitVec 32) (b : Byte)
    (bytes : List Byte) : storeAll spec sp buf.toNat (b :: bytes) =
      storeAll (overwrite spec ⟨sp, pageOf buf⟩ (offsetOf buf) 1 (b.signExtend 32)) sp
        (buf.toNat + 1) bytes := by
  funext r o
  obtain ⟨space, v⟩ := r
  have hoff : offsetOf buf < PageSize := Nat.mod_lt _ (by decide)
  have hbuf := toNat_eq buf
  unfold storeAll overwrite
  simp only [PTRef.mk.injEq, List.length_cons]
  by_cases hsp : space = sp ∧ o < PageSize
  · obtain ⟨rfl, ho⟩ := hsp
    by_cases hfirst : v * PageSize + o = buf.toNat
    · -- the first byte
      have hv : v = pageOf buf := by
        unfold pageOf
        rw [← hfirst, Nat.mul_comm, Nat.mul_add_div (by decide), Nat.div_eq_of_lt ho]
        rfl
      subst hv
      have hoo : o = offsetOf buf := by omega
      subst hoo
      have hbyte : byteOf (b.signExtend 32) 0 = b := byte_zero_signExtend b
      rw [if_pos ⟨rfl, ho, by omega, by omega⟩, if_neg (by omega),
        if_pos ⟨⟨rfl, rfl⟩, by omega, by omega⟩]
      simp [hbyte, hfirst]
    · by_cases hin : buf.toNat + 1 ≤ v * PageSize + o ∧
          v * PageSize + o < buf.toNat + 1 + bytes.length
      · rw [if_pos ⟨rfl, ho, by omega, by omega⟩, if_pos ⟨rfl, ho, hin⟩]
        have hsub : v * PageSize + o - buf.toNat = v * PageSize + o - (buf.toNat + 1) + 1 := by
          omega
        rw [hsub, List.getElem?_cons_succ]
      · rw [if_neg (by omega), if_neg (by tauto), if_neg]
        rintro ⟨⟨-, rfl⟩, h1, h2⟩
        omega
  · rw [if_neg (by tauto), if_neg (by tauto), if_neg]
    rintro ⟨⟨rfl, -⟩, -, h2⟩
    exact hsp ⟨rfl, by omega⟩

/-! ### One byte -/

/-- The `ASSERT`s of `load` that an access to the space may meet. -/
def LoadAssert (e : Fault) : Prop :=
  e = .swapFull ∨ e = .swapFileMissing ∨ e = .sourceFileMissing ∨ e = .bitMapRange

theorem LoadFault.loadAssert {s : VM c} {r : PTRef} {e : Fault} (h : LoadFault s r e) :
    LoadAssert e := by
  rcases h with rfl | rfl | rfl | ⟨rfl, -⟩
  · exact Or.inl rfl
  · exact Or.inr (Or.inl rfl)
  · exact Or.inr (Or.inr (Or.inl rfl))
  · exact Or.inr (Or.inr (Or.inr rfl))

/-- The registers after a page fault, when no load is pending. -/
theorem raised_run (badVAddr : BitVec 32) {k : SysState c} (hs : k.registers.Settled) :
    ∃ k', raised badVAddr k = .ok ((), k') ∧ k'.vm = k.vm := by
  obtain ⟨r, hr, -, -⟩ := delayedLoad_settled hs badVAddr
  exact ⟨_, raised_eq_ok.2 ⟨r, hr, rfl⟩, rfl⟩

/-- What the access to one byte leaves as it was. -/
structure Copying (sp : ℕ) (addr : BitVec 32) (w : Option (BitVec 32)) (s s' : VM c) : Prop where
  inOrder : InOrder sp s'
  spaces : s'.spaces = s.spaces
  bytes : ∀ spec r, Spares s ⟨sp, pageOf addr⟩ r → HasBytes spec s r →
    HasBytes (afterAccess spec ⟨sp, pageOf addr⟩ (offsetOf addr) 1 w) s' r

theorem InOrder.copying {sp : ℕ} {addr : BitVec 32} {w : Option (BitVec 32)} {s s' : VM c}
    (h : InOrder sp s) (ha : SafeAccessed sp addr 1 w s s') (hE : s.HasEntry ⟨sp, pageOf addr⟩)
    (hF' : Frames none s') : Copying sp addr w s s' where
  inOrder := (h.safeAccessed ha hE hF').1
  spaces := (h.safeAccessed ha hE hF').2.spaces
  bytes _ _ hspare hB := hB.safeAccessed h ha hE hspare

section byte

variable {sp fuel : ℕ} {k : SysState c} {addr : BitVec 32} {value : BitVec 32}

theorem sysReadMem_run {vm : VM c} (hs : k.registers.Settled)
    (h : safeReadMem addr 1 fuel k.vm = .ok (value, vm)) :
    ∃ k', sysReadMem fuel addr k = .ok (value, k') ∧ k'.vm = vm := by
  unfold sysReadMem
  rw [bind_run (m := get) rfl, h, bind_run (m := orFault (.ok (value, vm))) rfl]
  dsimp only
  rw [bind_run (m := modify fun k : SysState c => { k with vm := vm }) rfl]
  split_ifs
  · obtain ⟨k', hr, hvm⟩ := raised_run (c := c) addr (k := { k with vm := vm }) hs
    rw [bind_run hr]
    exact ⟨k', rfl, hvm⟩
  · exact ⟨_, rfl, rfl⟩

theorem sysWriteMem_run {vm : VM c} (hs : k.registers.Settled)
    (h : safeWriteMem addr 1 value fuel k.vm = .ok vm) :
    ∃ k', sysWriteMem fuel addr value k = .ok ((), k') ∧ k'.vm = vm := by
  unfold sysWriteMem
  rw [bind_run (m := get) rfl, h, bind_run (m := orFault (.ok vm)) rfl,
    bind_run (m := modify fun k : SysState c => { k with vm := vm }) rfl]
  split_ifs
  · exact raised_run (c := c) addr (k := { k with vm := vm }) hs
  · exact ⟨_, rfl, rfl⟩

theorem sysReadMem_fault {e : Fault} (h : safeReadMem addr 1 fuel k.vm = .error e) :
    sysReadMem fuel addr k = .error (.fault e) := by
  unfold sysReadMem
  rw [bind_run (m := get) rfl, h]
  rfl

theorem sysWriteMem_fault {e : Fault} (h : safeWriteMem addr 1 value fuel k.vm = .error e) :
    sysWriteMem fuel addr value k = .error (.fault e) := by
  unfold sysWriteMem
  rw [bind_run (m := get) rfl, h]
  rfl

/-- A byte of user memory is read. -/
theorem sysReadMem_spec (hfuel : 2 ≤ fuel) (h : InOrder sp k.vm) (hs : k.registers.Settled)
    (hE : k.vm.HasEntry ⟨sp, pageOf addr⟩) :
    (∃ value k', sysReadMem fuel addr k = .ok (value, k') ∧
      safeReadMem addr 1 fuel k.vm = .ok (value, k'.vm) ∧ Copying sp addr none k.vm k'.vm ∧
      pageByte k'.vm ⟨sp, pageOf addr⟩ (offsetOf addr) = some (value.setWidth 8)) ∨
      ∃ e, sysReadMem fuel addr k = .error (.fault e) ∧ LoadAssert e := by
  rcases safeAccess_spec h.frames h.current hE (aligned_byte addr) none hfuel with
    ⟨value, vm, heq, ha, hF', hval⟩ | ⟨e, heq, he⟩ <;> rw [← safeReadMem_eq] at heq
  · obtain ⟨k', hrun, rfl⟩ := sysReadMem_run hs heq
    refine Or.inl ⟨value, k', hrun, heq, h.copying ha hE hF', ?_⟩
    rw [← byteOf_zero]
    exact (hval rfl).pageByte (Nat.zero_lt_one)
  · exact Or.inr ⟨e, sysReadMem_fault heq, he.loadAssert⟩

/-- A byte of user memory is written. -/
theorem sysWriteMem_spec (hfuel : 2 ≤ fuel) (h : InOrder sp k.vm) (hs : k.registers.Settled)
    (hE : k.vm.HasEntry ⟨sp, pageOf addr⟩) (value : BitVec 32) :
    (∃ k', sysWriteMem fuel addr value k = .ok ((), k') ∧
      safeWriteMem addr 1 value fuel k.vm = .ok k'.vm ∧
      Copying sp addr (some value) k.vm k'.vm) ∨
      ∃ e, sysWriteMem fuel addr value k = .error (.fault e) ∧ LoadAssert e := by
  rcases safeAccess_spec h.frames h.current hE (aligned_byte addr) (some value) hfuel with
    ⟨_, vm, heq, ha, hF', -⟩ | ⟨e, heq, he⟩
  · have hwrite : safeWriteMem addr 1 value fuel k.vm = .ok vm := by rw [safeWriteMem_eq, heq]; rfl
    obtain ⟨k', hrun, rfl⟩ := sysWriteMem_run hs hwrite
    exact Or.inl ⟨k', hrun, hwrite, h.copying ha hE hF'⟩
  · refine Or.inr ⟨e, sysWriteMem_fault ?_, he.loadAssert⟩
    rw [safeWriteMem_eq, heq]
    rfl

end byte

/-! ### The loops -/

/-- The page of an access. -/
def Access.page : Access → ℕ
  | .readMem addr _ => pageOf addr
  | .writeMem addr _ _ => pageOf addr
  | .safeReadMem addr _ => pageOf addr
  | .safeWriteMem addr _ _ => pageOf addr

/-- No access drops a byte of a page that the rest of the accesses is to `keep`. -/
def Lossless (keep : List Access → PTRef → Prop) (fuel : ℕ) : List Access → VM c → Prop
  | [], _ => True
  | a :: as, s =>
    (∀ sp ∈ s.current, ∀ r ∈ s.IPT (clockVictim s), keep (a :: as) r → Spares s ⟨sp, a.page⟩ r) ∧
    match a.exec fuel s with
    | .ok (_, s') => Lossless keep fuel as s'
    | .error _ => True

instance (keep : List Access → PTRef → Prop) [∀ as, DecidablePred (keep as)] (fuel : ℕ)
    (as : List Access) (s : VM c) : Decidable (Lossless keep fuel as s) := by
  induction as generalizing s with
  | nil => exact .isTrue trivial
  | cons a as ih =>
    unfold Lossless
    cases a.exec fuel s with
    | ok p => exact instDecidableAnd
    | error e => exact instDecidableAnd

theorem Lossless.spares {keep : List Access → PTRef → Prop} {fuel sp : ℕ} {a : Access}
    {as : List Access} {s : VM c} (h : Lossless keep fuel (a :: as) s) (hc : s.current = some sp)
    {r : PTRef} (hr : keep (a :: as) r) : Spares s ⟨sp, a.page⟩ r :=
  fun hinv hfull hI => h.1 sp hc r hI hr hinv hfull hI

/-- The pages of `sp` that the accesses are to. -/
def Later (sp : ℕ) (as : List Access) (r : PTRef) : Prop :=
  r.space = sp ∧ ∃ a ∈ as, a.page = r.vpn
  deriving Decidable

/-- All pages. -/
def EveryPage (_ : List Access) (_ : PTRef) : Prop := True

/-- The accesses of the loop over `SafeReadMem`. -/
def fetches : BitVec 32 → ℕ → List Access
  | _, 0 => []
  | buf, n + 1 => .safeReadMem buf 1 :: fetches (buf + 1) n

/-- The accesses of the loop over `SafeWriteMem`. -/
def stores : BitVec 32 → List Byte → List Access
  | _, [] => []
  | buf, b :: bytes => .safeWriteMem buf 1 (b.signExtend 32) :: stores (buf + 1) bytes

section loops

variable {sp fuel : ℕ}

/-- **The loop over `SafeReadMem` reads the bytes of the buffer.**  A byte that is nowhere yet may
be any. -/
theorem readBytes_spec (hfuel : 2 ≤ fuel) (n : ℕ) {k : SysState c} (h : InOrder sp k.vm)
    (hs : k.registers.Settled) (hin : BufferIn (k.vm.spaces sp).numPages buf n) :
    (∃ bytes k', readBytes fuel n buf k = .ok (bytes, k') ∧ bytes.length = n ∧
      (Lossless (Later sp) fuel (fetches buf n) k.vm → ∀ spec,
        (∀ r, Later sp (fetches buf n) r → HasBytes spec k.vm r) → ∀ i < n, ∀ b,
        byteAt spec sp (buf.toNat + i) = some b → bytes[i]? = some b)) ∨
      ∃ e, readBytes fuel n buf k = .error (.fault e) ∧ LoadAssert e := by
  induction n generalizing k buf with
  | zero => exact Or.inl ⟨[], k, rfl, rfl, fun _ _ _ i hi => absurd hi (Nat.not_lt_zero i)⟩
  | succ n ih =>
    rw [readBytes]
    rcases sysReadMem_spec hfuel h hs hin.page_lt with
      ⟨value, k₁, hrun, hsafe, hcopy, hvalue⟩ | ⟨e, hrun, he⟩
    · obtain ⟨hin', hnext⟩ := hin.tail
      have hs₁ := (sysReadMem_copied fuel buf k value k₁ hrun).settled hs
      rw [bind_run hrun]
      rcases ih hcopy.inOrder hs₁ (by rw [hcopy.spaces]; exact hin') with
        ⟨bytes, k', hrest, hlen, hbytes⟩ | ⟨e, hrest, he⟩
      · refine Or.inl ⟨value.setWidth 8 :: bytes, k', by rw [bind_run hrest]; rfl, by simp [hlen],
          ?_⟩
        intro hless spec hB i hi b hb
        have hB₁ : ∀ r, Later sp (fetches buf (n + 1)) r → HasBytes spec k₁.vm r := fun r hr =>
          hcopy.bytes spec r (hless.spares h.current hr) (hB r hr)
        simp only [fetches, Lossless, Access.exec, hsafe, Except.map] at hless
        cases i with
        | zero =>
          have hE₁ : k₁.vm.HasEntry ⟨sp, pageOf buf⟩ := by
            simpa only [VM.HasEntry, hcopy.spaces] using hin.page_lt
          rw [Nat.add_zero] at hb
          exact hvalue.symm.trans
            (hB₁ _ ⟨rfl, _, .head _, rfl⟩ _ b hE₁ (Nat.mod_lt _ (by decide)) hb)
        | succ i =>
          refine hbytes hless.2 spec (fun r hr => hB₁ r ?_) i (by omega) b ?_
          · exact ⟨hr.1, hr.2.imp fun a ha => ⟨.tail _ ha.1, ha.2⟩⟩
          · rw [hnext.resolve_left (by omega), Nat.add_assoc, Nat.add_comm 1 i]
            exact hb
      · exact Or.inr ⟨e, bind_error hrest, he⟩
    · exact Or.inr ⟨e, bind_error hrun, he⟩

/-- **The loop over `SafeWriteMem` stores its bytes in the buffer**, and changes no other. -/
theorem writeBytes_spec (hfuel : 2 ≤ fuel) (bytes : List Byte) {k : SysState c}
    (h : InOrder sp k.vm) (hs : k.registers.Settled)
    (hin : BufferIn (k.vm.spaces sp).numPages buf bytes.length) :
    (∃ k', writeBytes fuel buf bytes k = .ok ((), k') ∧
      (Lossless EveryPage fuel (stores buf bytes) k.vm → ∀ spec r, HasBytes spec k.vm r →
        HasBytes (storeAll spec sp buf.toNat bytes) k'.vm r)) ∨
      ∃ e, writeBytes fuel buf bytes k = .error (.fault e) ∧ LoadAssert e := by
  induction bytes generalizing k buf with
  | nil =>
    refine Or.inl ⟨k, rfl, fun _ spec r hB => ?_⟩
    rw [storeAll_nil]
    exact hB
  | cons b bytes ih =>
    rw [List.length_cons] at hin
    rw [writeBytes]
    rcases sysWriteMem_spec hfuel h hs hin.page_lt (b.signExtend 32) with
      ⟨k₁, hrun, hsafe, hcopy⟩ | ⟨e, hrun, he⟩
    · obtain ⟨hin', hnext⟩ := hin.tail
      have hs₁ := (sysWriteMem_copied fuel buf _ k () k₁ hrun).settled hs
      rw [bind_run hrun]
      rcases ih hcopy.inOrder hs₁ (by rw [hcopy.spaces]; exact hin') with ⟨k', hrest, hB'⟩ | hrest
      · refine Or.inl ⟨k', hrest, fun hless spec r hB => ?_⟩
        have hB₁ := hcopy.bytes spec r (hless.spares h.current trivial) hB
        simp only [stores, Lossless, Access.exec, hsafe, Except.map] at hless
        have hB'' := hB' hless.2 _ r hB₁
        rw [storeAll_cons]
        rcases hnext with h0 | hnext
        · rw [List.length_eq_zero_iff.1 h0, storeAll_nil] at hB'' ⊢
          exact hB''
        · rw [hnext] at hB''
          exact hB''
      · exact Or.inr hrest
    · exact Or.inr ⟨e, bind_error hrun, he⟩

end loops

/-! ### `Write` -/

/-- An `ASSERT` of `load` has fired. -/
def Asserted {α : Type} (r : Except Stop α) : Prop := ∃ e, r = .error (.fault e) ∧ LoadAssert e

/-- The array of `size + 1` bytes of a handler is on the kernel stack of the thread, which has
`room` bytes left for it; a longer one runs over the end of the stack. -/
def onStack {α : Type} (room : ℕ) (handler : Sys c α) : Sys c α := fun k =>
  if (k.registers 5).toInt + 1 ≤ room then handler k else .error (.fault .wildAccess)

theorem onStack_pos {α : Type} {room n : ℕ} {k : SysState c} (hn : (k.registers 5).toInt = n)
    (h : n + 1 ≤ room) (handler : Sys c α) : onStack room handler k = handler k := by
  rw [onStack, hn, if_pos (by omega)]

theorem onStack_neg {α : Type} {room n : ℕ} {k : SysState c} (hn : (k.registers 5).toInt = n)
    (h : ¬ n + 1 ≤ room) (handler : Sys c α) :
    onStack room handler k = .error (.fault .wildAccess) := by
  rw [onStack, hn, if_neg (by omega)]

/-- `Nachos_Write` up to `Console->P()`, without it. -/
def writeCopy (fuel : ℕ) : Sys c (List Byte × ℕ × ℤ) := do
  let r4 ← readRegister 4
  let size ← orFault (bufferSize (← readRegister 5))
  let bytes ← readBytes fuel (max 1 size) r4
  let id ← readRegister 6
  return (if size = 0 then bytes else bytes ++ [0], size, id.toInt)

/-- What `Nachos_Write` passes on: `printf("%s", buffer)`, `write(unixOpenFileId, buffer, size)`. -/
def hostArgument (buffer : List Byte) (size : ℕ) (id : ℤ) : Except Fault (List Byte) :=
  if id = 1 then cString buffer else .ok (buffer.take size)

/-- The bytes are printed, or written to the file if it is open. -/
def deliver (w : World c) (size : ℕ) (id : ℤ) (bytes : List Byte) : Sys c Unit :=
  if id = 1 then do
    modify fun k => { k with
      output := k.output ++ [.text bytes]
      numConsoleCharsWritten := k.numConsoleCharsWritten + bytes.length }
    writeLeave w size
  else do
    let k ← get
    if k.mytable.isOpened id then
      let charCounter := w.unixWrite (← call) (k.mytable.getUnixHandle id) bytes
      writeRegister 2 (.ofInt 32 charCounter)
      writeLeave w size
    else writeRegister 2 (-1)

theorem writeSwitch_deliver (w : World c) (buffer : List Byte) (size : ℕ) {id : ℤ} (h0 : id ≠ 0)
    (h2 : id ≠ 2) :
    writeSwitch w buffer size id = orFault (hostArgument buffer size id) >>= deliver w size id := by
  by_cases h1 : id = 1
  · subst h1
    rfl
  · unfold hostArgument deliver
    simp only [if_neg h1]
    unfold writeSwitch
    split
    · exact absurd rfl h0
    · exact absurd rfl h1
    · exact absurd rfl h2
    · rfl

theorem nachosWrite_eq (w : World c) (fuel : ℕ) : nachosWrite w fuel = writeCopy fuel >>= fun x =>
    semP w Console fuel >>= fun _ => writeSwitch w x.1 x.2.1 x.2.2 := by
  unfold nachosWrite writeEnter writeCopy
  simp only [bind_assoc, pure_bind]

/-- `Write` hands over `bytes` once it has the console. -/
def WriteDelivers (w : World c) (fuel room : ℕ) (k : SysState c) (bytes : List Byte) : Prop :=
  ∃ buffer size id k₁, onStack room (writeCopy fuel) k = .ok ((buffer, size, id), k₁) ∧
    hostArgument buffer size id = .ok bytes ∧
    onStack room (nachosWrite w fuel) k =
      (semP w Console fuel >>= fun _ => deliver w size id bytes) k₁

section Write

variable {w : World c} {fuel room sp n : ℕ} {k : SysState c}

/-- The buffer is the bytes in user memory, and a NUL. -/
theorem writeCopy_spec (hfuel : 2 ≤ fuel) (h : InOrder sp k.vm) (hs : k.registers.Settled)
    (hsize : bufferSize (k.registers 5) = .ok n) (h1 : 1 ≤ n)
    (hin : BufferIn (k.vm.spaces sp).numPages (k.registers 4) n) :
    (∃ bytes k₁, writeCopy fuel k = .ok ((bytes ++ [0], n, (k.registers 6).toInt), k₁) ∧
      bytes.length = n ∧
      (Lossless (Later sp) fuel (fetches (k.registers 4) n) k.vm → ∀ i < n, ∀ b,
        byteAt (pageByte k.vm) sp ((k.registers 4).toNat + i) = some b → bytes[i]? = some b)) ∨
      Asserted (writeCopy fuel k) := by
  unfold writeCopy
  rw [bind_run (m := readRegister 4) (a := k.registers 4) rfl,
    bind_run (m := readRegister 5) (a := k.registers 5) rfl, hsize,
    bind_run (m := orFault (.ok n)) rfl, Nat.max_eq_right h1]
  rcases readBytes_spec hfuel n h hs hin with ⟨bytes, k₁, hrun, hlen, hbytes⟩ | ⟨e, hrun, he⟩
  · have hcopied := readBytes_copied fuel n (k.registers 4) k bytes k₁ hrun
    refine Or.inl ⟨bytes, k₁, ?_, hlen, fun hless => hbytes hless _ fun r _ _ _ _ _ hb => hb⟩
    rw [bind_run hrun, bind_run (m := readRegister 6) (a := k₁.registers 6) rfl,
      hcopied.registers hs 6 (by decide), if_neg (by omega)]
    rfl
  · exact Or.inr ⟨e, bind_error hrun, he⟩

/-- What the buffer holds, if the handler does not come to read it. -/
theorem exists_bytes (spec : PTRef → ℕ → Option Byte) (sp a n : ℕ) : ∃ bytes : List Byte,
    bytes.length = n ∧ ∀ i < n, ∀ b, byteAt spec sp (a + i) = some b → bytes[i]? = some b := by
  refine ⟨(List.range n).map fun i => (byteAt spec sp (a + i)).getD 0, by simp, ?_⟩
  intro i hi b hb
  simp [hi, hb]

/-- The string that ends at the first NUL is all of the bytes if there is none. -/
theorem takeWhile_ne_zero_eq_iff (bytes : List Byte) :
    bytes.takeWhile (· ≠ 0) = bytes ↔ 0 ∉ bytes := by
  rw [List.takeWhile_eq_self_iff]
  constructor
  · intro h h0
    simpa using h 0 h0
  · intro h b hb
    have hne : b ≠ 0 := fun h0 => h (h0 ▸ hb)
    simpa using hne

/-- **`Write` hands over the bytes of the buffer**, to the console if there is no NUL among them. -/
theorem write_delivers_iff (hfuel : 2 ≤ fuel) (h : InOrder sp k.vm)
    (hs : k.registers.Settled) (hn : (k.registers 5).toInt = n) (h1 : 1 ≤ n)
    (hin : BufferIn (k.vm.spaces sp).numPages (k.registers 4) n)
    (hid : (k.registers 6).toInt ∉ [0, 2])
    (hless : Lossless (Later sp) fuel (fetches (k.registers 4) n) k.vm) :
    Asserted (onStack room (nachosWrite w fuel) k) ∨ ∃ bytes : List Byte, bytes.length = n ∧
      (∀ i < n, ∀ b, byteAt (pageByte k.vm) sp ((k.registers 4).toNat + i) = some b →
        bytes[i]? = some b) ∧
      (WriteDelivers w fuel room k bytes ↔
        n + 1 < 2 ^ 31 ∧ n + 1 ≤ room ∧ ((k.registers 6).toInt = 1 → 0 ∉ bytes)) := by
  have hsize := bufferSize_nat hn
  simp only [List.mem_cons, List.not_mem_nil, or_false, not_or] at hid
  by_cases hroom : n + 1 ≤ room
  · unfold WriteDelivers
    simp only [onStack_pos hn hroom]
    by_cases hbig : n + 1 < 2 ^ 31
    · rw [if_pos hbig] at hsize
      rcases writeCopy_spec hfuel h hs hsize h1 hin with
        ⟨bytes, k₁, hcopy, hlen, hbytes⟩ | ⟨e, hcopy, he⟩
      · refine Or.inr ⟨bytes, hlen, hbytes hless, ?_⟩
        have harg : hostArgument (bytes ++ [0]) n (k.registers 6).toInt = .ok bytes ↔
            ((k.registers 6).toInt = 1 → 0 ∉ bytes) := by
          unfold hostArgument
          by_cases hone : (k.registers 6).toInt = 1
          · rw [if_pos hone, cString_zero, Except.ok.injEq, takeWhile_ne_zero_eq_iff]
            exact ⟨fun h _ => h, fun h => h hone⟩
          · rw [if_neg hone, ← hlen, List.take_left]
            exact iff_of_true rfl fun h => absurd h hone
        rw [← harg, and_iff_right hbig, and_iff_right hroom]
        constructor
        · rintro ⟨buffer, size, id, k₂, hcopy', harg', -⟩
          rw [hcopy] at hcopy'
          cases hcopy'
          exact harg'
        · intro harg'
          refine ⟨_, _, _, k₁, hcopy, harg', ?_⟩
          rw [nachosWrite_eq, bind_run hcopy]
          dsimp only
          rw [writeSwitch_deliver w _ _ hid.1 hid.2, harg']
          rfl
      · exact Or.inl ⟨e, by rw [nachosWrite_eq, bind_error hcopy], he⟩
    · obtain ⟨bytes, hlen, hbytes⟩ := exists_bytes (pageByte k.vm) sp (k.registers 4).toNat n
      refine Or.inr ⟨bytes, hlen, hbytes, iff_of_false ?_ fun h => hbig h.1⟩
      rintro ⟨buffer, size, id, k₁, hcopy, -, -⟩
      unfold writeCopy at hcopy
      rw [bind_run (m := readRegister 4) (a := k.registers 4) rfl,
        bind_run (m := readRegister 5) (a := k.registers 5) rfl, hsize, if_neg hbig] at hcopy
      cases hcopy
  · obtain ⟨bytes, hlen, hbytes⟩ := exists_bytes (pageByte k.vm) sp (k.registers 4).toNat n
    refine Or.inr ⟨bytes, hlen, hbytes, iff_of_false ?_ fun h => hroom h.2.1⟩
    rintro ⟨buffer, size, id, k₁, hcopy, -, -⟩
    rw [onStack_neg hn hroom] at hcopy
    cases hcopy

end Write

/-! ### `Read` -/

/-- `Read` stores `bytes` in the buffer, changes no other byte of any page and returns their
number. -/
def ReadStores (w : World c) (fuel room sp : ℕ) (k : SysState c) (bytes : List Byte) : Prop :=
  ∃ k', onStack room (nachosRead w fuel) k = .ok ((), k') ∧
    (∀ r, HasBytes (storeAll (pageByte k.vm) sp (k.registers 4).toNat bytes) k'.vm r) ∧
    (k'.registers 2).toInt = bytes.length

/-- What is typed on the console; at the end of input `getchar` returns -1, as a `char` 0xFF. -/
def World.Input (w : World c) (input : ℕ → Option Byte) : Prop :=
  ∀ m, w.getchar m = (input m).getD 0xFF

/-- The next `n` bytes of the input, or those up to its end. -/
def obtained (input : ℕ → Option Byte) : ℕ → ℕ → List Byte
  | _, 0 => []
  | m, n + 1 =>
    match input m with
    | some b => b :: obtained input (m + 1) n
    | none => []

/-- What `n` calls of `getchar` return. -/
def typed (w : World c) : ℕ → ℕ → List Byte
  | _, 0 => []
  | m, n + 1 => w.getchar m :: typed w (m + 1) n

theorem getchars_run (w : World c) (n : ℕ) (k : SysState c) :
    getchars w n k = .ok (typed w k.calls n, { k with calls := k.calls + n }) := by
  induction n generalizing k with
  | zero => rfl
  | succ n ih =>
    unfold getchars
    rw [bind_run (m := call) (a := k.calls) rfl, bind_run (ih _)]
    simp only [typed, Nat.add_assoc, Nat.add_comm 1]
    rfl

theorem typed_length (w : World c) (m n : ℕ) : (typed w m n).length = n := by
  induction n generalizing m with
  | zero => rfl
  | succ n ih => rw [typed, List.length_cons, ih]

section Input

variable {w : World c} {input : ℕ → Option Byte}

/-- The next `n` bytes are there, and none is a NUL. -/
def PlainInput (input : ℕ → Option Byte) (m n : ℕ) : Prop :=
  ∀ j < n, ∃ b, input (m + j) = some b ∧ b ≠ 0

theorem plainInput_succ (m n : ℕ) : PlainInput input m (n + 1) ↔
    (∃ b, input m = some b ∧ b ≠ 0) ∧ PlainInput input (m + 1) n := by
  constructor
  · intro h
    refine ⟨h 0 (Nat.succ_pos n), fun j hj => ?_⟩
    rw [show m + 1 + j = m + (j + 1) by omega]
    exact h (j + 1) (by omega)
  · rintro ⟨h0, h⟩ j hj
    cases j with
    | zero => exact h0
    | succ j =>
      rw [show m + (j + 1) = m + 1 + j by omega]
      exact h j (by omega)

/-- The string that was typed is as long as the input only if it is the input, without a NUL. -/
theorem typed_string_iff (hw : w.Input input) (m n : ℕ) :
    ((typed w m n).takeWhile (· ≠ 0)).length = (obtained input m n).length ↔
      PlainInput input m n := by
  induction n generalizing m with
  | zero => exact iff_of_true rfl fun j hj => absurd hj (Nat.not_lt_zero j)
  | succ n ih =>
    rw [plainInput_succ, typed, hw m]
    unfold obtained
    cases hin : input m with
    | none =>
      -- the end of input is taken for a byte
      refine iff_of_false ?_ (by simp)
      rw [List.takeWhile_cons, if_pos (by decide)]
      simp
    | some b =>
      by_cases hb : b = 0
      · subst hb
        refine iff_of_false ?_ (by simp)
        rw [List.takeWhile_cons, if_neg (by simp)]
        simp
      · rw [List.takeWhile_cons, if_pos (by simpa using hb), List.length_cons, List.length_cons,
          Nat.add_right_cancel_iff, ih]
        exact ⟨fun h => ⟨⟨b, rfl, hb⟩, h⟩, fun h => h.2⟩

theorem typed_string_eq (hw : w.Input input) {m n : ℕ} (h : PlainInput input m n) :
    (typed w m n).takeWhile (· ≠ 0) = obtained input m n := by
  induction n generalizing m with
  | zero => rfl
  | succ n ih =>
    obtain ⟨⟨b, hin, hb⟩, hrest⟩ := (plainInput_succ m n).1 h
    rw [typed, hw m, obtained, hin, List.takeWhile_cons, if_pos (by simpa using hb), ih hrest]
    rfl

end Input

section Read

variable {w : World c} {fuel room sp n : ℕ} {k : SysState c}

theorem BufferIn.mono {numPages m : ℕ} (h : BufferIn numPages buf n) (hle : m ≤ n) :
    BufferIn numPages buf m := ⟨by have := h.1; omega, by have := h.2; omega⟩

theorem toInt_ofNat (h : n + 1 < 2 ^ 31) : (BitVec.ofNat 32 n).toInt = n := by
  rw [BitVec.toInt_eq_toNat_cond, BitVec.toNat_ofNat, Nat.mod_eq_of_lt (by omega),
    if_pos (by omega)]

/-- The end of `Read`: the bytes are stored, and their number is returned. -/
def storeAndReturn (fuel : ℕ) (buf : BitVec 32) (bytes : List Byte) : Sys c Unit := do
  writeBytes fuel buf bytes
  writeRegister 2 (.ofNat 32 bytes.length)
  returnFromSystemCall

theorem storeAndReturn_spec (hfuel : 2 ≤ fuel) (h : InOrder sp k.vm) (hs : k.registers.Settled)
    {bytes : List Byte} (hlt : bytes.length + 1 < 2 ^ 31)
    (hin : BufferIn (k.vm.spaces sp).numPages buf bytes.length) :
    (∃ k', storeAndReturn fuel buf bytes k = .ok ((), k') ∧
      (Lossless EveryPage fuel (stores buf bytes) k.vm →
        ∀ r, HasBytes (storeAll (pageByte k.vm) sp buf.toNat bytes) k'.vm r) ∧
      (k'.registers 2).toInt = bytes.length) ∨
      Asserted (storeAndReturn fuel buf bytes k) := by
  unfold storeAndReturn
  rcases writeBytes_spec hfuel bytes h hs hin with ⟨k₁, hrun, hB⟩ | ⟨e, hrun, he⟩
  · refine Or.inl ?_
    rw [bind_run hrun, bind_run (m := writeRegister 2 (.ofNat 32 bytes.length)) rfl]
    obtain ⟨k', hret, hr2, hrest⟩ := returnFromSystemCall_run (c := c)
      { k₁ with registers := Function.update k₁.registers 2 (.ofNat 32 bytes.length) }
    refine ⟨k', hret, fun hless r => ?_, ?_⟩
    · rw [hrest]
      exact hB hless _ r fun _ _ _ _ hb => hb
    · rw [hr2]
      dsimp only
      rw [Function.update_self, toInt_ofNat hlt]
  · exact Or.inr ⟨e, bind_error hrun, he⟩

/-- A `Read` that has no room for its array, or is too long, stores nothing. -/
theorem not_readStores (hn : (k.registers 5).toInt = n) (h : ¬ (n + 1 < 2 ^ 31 ∧ n + 1 ≤ room))
    (bytes : List Byte) : ¬ ReadStores w fuel room sp k bytes := by
  rintro ⟨k', hrun, -⟩
  by_cases hroom : n + 1 ≤ room
  · have hbig : ¬ n + 1 < 2 ^ 31 := fun hbig => h ⟨hbig, hroom⟩
    rw [onStack_pos hn hroom, nachosRead_unsized (by
      rw [bufferSize_nat hn, if_neg hbig]
      rintro ⟨m, hm⟩
      cases hm)] at hrun
    cases hrun
  · rw [onStack_neg hn hroom] at hrun
    cases hrun

/-- **`Read` stores what it got from the file.** -/
theorem read_file_stores_iff (hfuel : 2 ≤ fuel) (h : InOrder sp k.vm)
    (hs : k.registers.Settled) (hn : (k.registers 5).toInt = n)
    (hin : BufferIn (k.vm.spaces sp).numPages (k.registers 4) n)
    (hid : (k.registers 6).toInt ∉ [0, 1, 2])
    (hopen : k.mytable.isOpened (k.registers 6).toInt = true) {bytes : List Byte}
    (hread : w.unixRead k.calls (k.mytable.getUnixHandle (k.registers 6).toInt) n = some bytes)
    (hlen : bytes.length ≤ n)
    (hless : Lossless EveryPage fuel (stores (k.registers 4) bytes) k.vm) :
    Asserted (onStack room (nachosRead w fuel) k) ∨
      (ReadStores w fuel room sp k bytes ↔ n + 1 < 2 ^ 31 ∧ n + 1 ≤ room) := by
  by_cases hfits : n + 1 < 2 ^ 31 ∧ n + 1 ≤ room
  · have hsize := bufferSize_nat hn
    rw [if_pos hfits.1] at hsize
    have hrun : nachosRead w fuel k =
        storeAndReturn fuel (k.registers 4) bytes { k with calls := k.calls + 1 } := by
      rw [nachosRead_sized hsize]
      simp only [List.mem_cons, List.not_mem_nil, or_false, not_or] at hid
      split
      · rename_i h0
        exact absurd h0 hid.1
      · rename_i h1
        exact absurd h1 hid.2.1
      · rename_i h2
        exact absurd h2 hid.2.2
      · unfold readFile storeAndReturn
        simp only [bind_assoc]
        rw [bind_run (m := get) rfl, hopen, if_pos rfl]
        simp only [bind_assoc]
        rw [bind_run (m := call) (a := k.calls) rfl, hread]
        simp only [bind_assoc]
    unfold ReadStores
    rw [onStack_pos hn hfits.2, hrun]
    rcases storeAndReturn_spec (k := { k with calls := k.calls + 1 }) hfuel h hs (by omega)
      (hin.mono hlen) with ⟨k', hk', hB, hr2⟩ | hfault
    · exact Or.inr (iff_of_true ⟨k', hk', hB hless, hr2⟩ hfits)
    · exact Or.inl hfault
  · exact Or.inr (iff_of_false (not_readStores hn hfits bytes) hfits)

/-- **`Read` stores the bytes of the console's input exactly when they are there and none is a
NUL.** -/
theorem read_console_stores_iff (hfuel : 2 ≤ fuel) (h : InOrder sp k.vm)
    (hs : k.registers.Settled) (hn : (k.registers 5).toInt = n)
    (hin : BufferIn (k.vm.spaces sp).numPages (k.registers 4) n)
    (hid : (k.registers 6).toInt = 0) {input : ℕ → Option Byte} (hw : w.Input input)
    (hless : Lossless EveryPage fuel (stores (k.registers 4) (obtained input k.calls n)) k.vm) :
    Asserted (onStack room (nachosRead w fuel) k) ∨
      (ReadStores w fuel room sp k (obtained input k.calls n) ↔
        n + 1 < 2 ^ 31 ∧ n + 1 ≤ room ∧ PlainInput input k.calls n) := by
  rw [← and_assoc]
  by_cases hfits : n + 1 < 2 ^ 31 ∧ n + 1 ≤ room
  · have hsize := bufferSize_nat hn
    rw [if_pos hfits.1] at hsize
    obtain ⟨text, htext⟩ : ∃ text, text = (typed w k.calls n).takeWhile (· ≠ 0) := ⟨_, rfl⟩
    have hle : text.length ≤ n := by
      rw [htext]
      exact (List.takeWhile_prefix _).length_le.trans (typed_length w k.calls n).le
    have hrun : nachosRead w fuel k = storeAndReturn fuel (k.registers 4) text { k with
        calls := k.calls + n
        numConsoleCharsRead := k.numConsoleCharsRead + text.length } := by
      rw [nachosRead_sized hsize, hid]
      dsimp only
      unfold readConsole storeAndReturn
      simp only [bind_assoc]
      rw [bind_run (getchars_run w n k), cString_zero, ← htext]
      rfl
    unfold ReadStores
    rw [onStack_pos hn hfits.2, hrun, and_iff_right hfits]
    rcases storeAndReturn_spec (k := { k with
      calls := k.calls + n
      numConsoleCharsRead := k.numConsoleCharsRead + text.length }) hfuel h hs (by omega)
      (hin.mono hle) with ⟨k', hk', hB, hr2⟩ | hfault
    · refine Or.inr ?_
      constructor
      · rintro ⟨k'', hk'', -, hr2'⟩
        rw [hk'] at hk''
        cases hk''
        rw [hr2, htext] at hr2'
        exact (typed_string_iff hw _ _).1 (by exact_mod_cast hr2')
      · intro hplain
        rw [typed_string_eq hw hplain] at htext
        subst htext
        exact ⟨k', hk', hB hless, hr2⟩
    · exact Or.inl hfault
  · exact Or.inr (iff_of_false (not_readStores hn hfits _) fun h => hfits h.1)

end Read

/-! ### Both calls -/

/-- `smallNoff` with a NUL as second byte of the code. -/
def nulNoff : File := { smallNoff with byte := fun k => if k = 41 then 0 else smallNoff.byte k }

/-- A program of `nulNoff` has just been started. -/
def nulStart : VM machineH :=
  { restoreState zeroTLB
      ((boot (fun _ => some nulNoff) (some (File.ofList [])) (fun _ => 0) (fun _ => 0)
        zeroTLB).addSpace (.ofHeader nulNoff.noffHeader "sort") freshEntry) with
    current := some 0 }

theorem nulStart_started : Started nulStart := by
  refine ⟨_, nulNoff, "sort", _, zeroTLB, ⟨fun _ => some nulNoff, some (File.ofList []), fun _ => 0,
    fun _ => 0, zeroTLB, rfl⟩, ?_, rfl⟩
  have hmagic : nulNoff.noffHeader.noffMagic = NOFFMAGIC := by decide +kernel
  unfold newAddrSpace
  rw [if_pos hmagic]

/-- It makes a call for the file `id` and 3 bytes at address 0. -/
def callsNul (id : BitVec 32) : SysState machineH :=
  { callsWrite id with
    registers := fun i => if i = 5 then 3 else if i = 6 then id else 0
    vm := nulStart }

/-- Nothing is typed on the console. -/
def noInput : World machineH := { quiet with getchar := fun _ => 0xFF }

/-- Only the letter A is typed on the console. -/
def typing : World machineH := { quiet with getchar := fun _ => 0x41 }

/-- Four stack pages are loaded, one for each frame. -/
def fourPages : List (Action machineH) :=
  [.read 640 1, .read 768 1, .read 896 1, .read 1024 1]

/-- The program reads a byte from the console to a fifth page. -/
def callsRead (s : VM machineH) : SysState machineH :=
  { callsWrite 0 with
    registers := fun i => if i = 4 then 512 else if i = 5 then 1 else 0
    vm := s }

/-- `Read` of one byte drops a stack page that was only read so far.  In the end the first byte of
another page, which was 0, is the byte that was typed. -/
theorem read_drops_page : ∃ s k' s', Reachable s ∧
    [640, 1024].map (byteAt (pageByte s) 0) = [some 0, some 0] ∧
    nachosRead typing 2 (callsRead s) = .ok ((), k') ∧ byteAt (pageByte k'.vm) 0 640 = none ∧
    ¬ ReadStores typing 2 32768 0 (callsRead s) [0x41] ∧
    execAll fourPages k'.vm = .ok s' ∧ byteAt (pageByte s') 0 1024 = some 0x41 := by
  obtain ⟨s, hs, ⟨hE, hbefore⟩, hread⟩ := exists_ok (execAll fourPages smallStart)
    (fun s => (5 < (s.spaces 0).numPages ∧
      [640, 1024].map (byteAt (pageByte s) 0) = [some 0, some 0]) ∧
      ((nachosRead typing 2 (callsRead s)).toOption.any fun p =>
        decide ((5 < (p.2.vm.spaces 0).numPages ∧ byteAt (pageByte p.2.vm) 0 640 = none) ∧
          ((execAll fourPages p.2.vm).toOption.any fun s' =>
            decide (byteAt (pageByte s') 0 1024 = some 0x41)) = true)) = true)
    (by decide +kernel)
  obtain ⟨⟨_, k'⟩, hread, ⟨hE', hnone⟩, hafter⟩ :=
    exists_ok (nachosRead typing 2 (callsRead s)) _ hread
  obtain ⟨s', hs', hchanged⟩ := exists_ok (execAll fourPages k'.vm) _ hafter
  refine ⟨s, k', s', smallStart_reachable.execAll (by simp [fourPages, Action.enabled]) hs,
    hbefore, hread, hnone, ?_, hs', hchanged⟩
  rintro ⟨k'', hread', hB, -⟩
  rw [onStack_pos (n := 1) rfl (by decide), hread] at hread'
  cases hread'
  -- the byte was there, and was not in the buffer
  have hold : storeAll (pageByte s) 0 512 [0x41] ⟨0, 5⟩ 0 = some 0 := by
    rw [storeAll, if_neg (by decide)]
    exact (List.cons.inj hbefore).1
  have hnew := hB ⟨0, 5⟩ 0 0 hE' (by decide) hold
  rw [show pageByte k'.vm ⟨0, 5⟩ 0 = none from hnone] at hnew
  cases hnew

end Nachos
