import Nachos.VM.Spaces
import Nachos.Lib.Transition
import Nachos.Lib.Effect

/-!
# Runs of the virtual memory

Address spaces are made from executables, user programs access their memory, and the scheduler
switches between them, in any order.  `Action` lists the steps, `Action.exec` performs one, and
`Reachable` are the states after `Initialize` and any number of steps none of which stopped the
kernel.

* There is no `Fork` here: every space comes from `AddrSpace(OpenFile*, string)`.
* A switch is two steps, `SaveState` of the old space and `RestoreState` of the new one; both get
  a TLB with arbitrary garbage.  A store of `SaveState` outside the page table is ignored.
* `load` runs where the machine runs it: when `Translate` finds no TLB entry in `ReadMem` or
  `WriteMem`.
-/

namespace Nachos

open Function Fallible

variable {c : Sizes}

/-- The steps of a run. -/
inductive Action (c : Sizes)
  | create (fn : String)
  | read (addr : BitVec 32) (size : ℕ)
  | write (addr : BitVec 32) (size : ℕ) (value : BitVec 32)
  | switchOut (fresh : Fin c.TLBSize → TranslationEntry)
  | switchIn (sp : ℕ) (fresh : Fin c.TLBSize → TranslationEntry)

/-- When a step can be taken: `create` has an executable to open, `switchOut` a space to leave,
and `switchIn` follows a `switchOut`. -/
def Action.enabled : Action c → VM c → Prop
  | .create fn, s => s.files fn ≠ none
  | .read _ _, _ => True
  | .write _ _ _, _ => True
  | .switchOut _, s => s.current ≠ none
  | .switchIn sp _, s => s.current = none ∧ sp < s.numSpaces

/-- Perform a step. -/
def Action.exec : Action c → VM c → Except Fault (VM c)
  | .create fn, s =>
    match s.files fn with
    | some executable => newAddrSpace executable fn s
    | none => .ok s
  | .read addr size, s => (readMem addr size s).map (·.2)
  | .write addr size value, s => (writeMem addr size value s).map (·.2)
  | .switchOut fresh, s =>
    match s.current with
    | some sp => .ok { (saveState sp fresh s).1 with current := none }
    | none => .ok s
  | .switchIn sp fresh, s => .ok { restoreState fresh s with current := some sp }

/-- One step that does not stop the kernel. -/
def Step (s : VM c) (a : Action c) (s' : VM c) : Prop := a.enabled s ∧ a.exec s = .ok s'

/-- A state that `Initialize` may leave. -/
def Booted (s : VM c) : Prop :=
  ∃ files swapFile words words' fresh, s = boot files swapFile words words' fresh

/-- The states of all runs. -/
def Reachable (s : VM c) : Prop := Transition.Reach Booted Step s

/-- Perform a list of steps. -/
def execAll (as : List (Action c)) (s : VM c) : Except Fault (VM c) :=
  as.foldlM (fun s a => a.exec s) s

variable {s s' : VM c} {a : Action c}

/-- Accesses are always enabled. -/
theorem Reachable.execAll {as : List (Action c)} (h : Reachable s)
    (hen : ∀ a ∈ as, ∀ s : VM c, a.enabled s) (hex : execAll as s = .ok s') : Reachable s' := by
  induction as generalizing s with
  | nil =>
    cases hex
    exact h
  | cons a as ih =>
    have hcons : (a.exec s >>= fun s₁ => Nachos.execAll as s₁) = .ok s' := hex
    cases ha : a.exec s with
    | error e =>
      rw [ha] at hcons
      cases hcons
    | ok s₁ =>
      rw [ha] at hcons
      exact ih (.step a h ⟨hen a List.mem_cons_self s, ha⟩)
        (fun b hb => hen b (List.mem_cons_of_mem a hb)) hcons

/-- The address of an access. -/
def Action.addr : Action c → Option (BitVec 32)
  | .read addr _ => some addr
  | .write addr _ _ => some addr
  | _ => none

/-- The step reads (`w = none`) or writes. -/
def Action.IsAccess (a : Action c) (addr : BitVec 32) (size : ℕ) (w : Option (BitVec 32)) : Prop :=
  a = .read addr size ∧ w = none ∨ ∃ value, a = .write addr size value ∧ w = some value

theorem Action.IsAccess.addr {addr : BitVec 32} {size : ℕ} {w : Option (BitVec 32)}
    (h : a.IsAccess addr size w) : a.addr = some addr := by
  rcases h with ⟨rfl, -⟩ | ⟨value, rfl, -⟩ <;> rfl

/-- What a step does. -/
inductive Stepped (s : VM c) : Action c → VM c → Prop
  | create (fn : String) (executable : File) (hf : s.files fn = some executable)
    (hm : executable.noffHeader.noffMagic = NOFFMAGIC) :
    Stepped s (.create fn) (s.addSpace (.ofHeader executable.noffHeader fn) freshEntry)
  | access (a : Action c) (addr : BitVec 32) (size : ℕ) (w o : Option (BitVec 32)) (s' : VM c)
    (ha : a.IsAccess addr size w) (h : accessMem w addr size s = .ok (o, s')) : Stepped s a s'
  | switchOut (sp : ℕ) (fresh : Fin c.TLBSize → TranslationEntry) (hc : s.current = some sp) :
    Stepped s (.switchOut fresh) { (saveStateLoop sp (List.finRange c.TLBSize) s).1 with
      tlb := freshTLB fresh
      current := none }
  | switchIn (sp : ℕ) (fresh : Fin c.TLBSize → TranslationEntry) (hc : s.current = none) :
    Stepped s (.switchIn sp fresh) { s with
      indexTLBSndChc := ⟨0, c.tlb_pos⟩
      tlb := freshTLB fresh
      current := some sp }

theorem Step.stepped (h : Step s a s') : Stepped s a s' := by
  obtain ⟨hen, hex⟩ := h
  cases a with
  | create fn =>
    cases hf : s.files fn with
    | none => exact absurd hf hen
    | some executable =>
      simp only [Action.exec, hf, newAddrSpace] at hex
      split_ifs at hex with hm
      cases hex
      exact .create fn executable hf hm
  | read addr size =>
    obtain ⟨⟨o, s'⟩, hr, rfl⟩ := map_eq_ok.1 hex
    rw [readMem_eq] at hr
    exact .access _ addr size none o s' (Or.inl ⟨rfl, rfl⟩) hr
  | write addr size value =>
    obtain ⟨⟨b, s'⟩, hw, rfl⟩ := map_eq_ok.1 hex
    rw [writeMem_eq] at hw
    obtain ⟨⟨o, s'⟩, hacc, ⟨⟩⟩ := map_eq_ok.1 hw
    exact .access _ addr size (some value) o s' (Or.inr ⟨value, rfl, rfl⟩) hacc
  | switchOut fresh =>
    cases hc : s.current with
    | none => exact absurd hc hen
    | some sp =>
      simp only [Action.exec, hc, Except.ok.injEq] at hex
      subst hex
      exact .switchOut sp fresh hc
  | switchIn sp fresh =>
    simp only [Action.exec, Except.ok.injEq] at hex
    subst hex
    exact .switchIn sp fresh hen.1

/-- What a step does: the running space accesses memory, a space is made, or the TLB is thrown
away. -/
inductive StepCases (A : Alias) (s : VM c) (a : Action c) (s' : VM c) : Prop
  | access (sp : ℕ) (addr : BitVec 32) (size : ℕ) (w : Option (BitVec 32))
    (hc : s.current = some sp) (hE : s.HasEntry ⟨sp, pageOf addr⟩)
    (ha : Accessed sp addr size w s s') (hF : FramesUpTo A none s') (haw : a.IsAccess addr size w)
  | create (fn : String) (executable : File) (ha : a = .create fn)
    (hf : s.files fn = some executable) (hm : executable.noffHeader.noffMagic = NOFFMAGIC)
    (hs : s' = s.addSpace (.ofHeader executable.noffHeader fn) freshEntry)
  | switchOut (sp : ℕ) (fresh : Fin c.TLBSize → TranslationEntry) (s₁ : VM c)
    (ha : a = .switchOut fresh) (hc : s.current = some sp) (hb : BitsOnly s s₁)
    (hs₁ : s₁ = (saveStateLoop sp (List.finRange c.TLBSize) s).1)
    (hs : s' = { s₁ with tlb := freshTLB fresh, current := none })
  | switchIn (sp : ℕ) (fresh : Fin c.TLBSize → TranslationEntry) (ha : a = .switchIn sp fresh)
    (hc : s.current = none)
    (hs : s' = { s with
      indexTLBSndChc := ⟨0, c.tlb_pos⟩
      tlb := freshTLB fresh
      current := some sp })

/-- An access must not take a frame away from a page with aliases. -/
theorem step_cases_upTo {A : Alias} (hF : FramesUpTo A none s)
    (hsolo : ∀ sp addr, s.current = some sp → a.addr = some addr →
      SoloVictim A s ⟨sp, pageOf addr⟩) (h : Step s a s') : StepCases A s a s' := by
  cases h.stepped with
  | create fn executable hf hm => exact .create fn executable rfl hf hm rfl
  | access a addr size w o s' ha hr =>
    obtain ⟨sp, hc, hE, hacc, hF', -⟩ := accessMem_ok hF (fun sp hc => hsolo sp addr hc ha.addr) hr
    exact .access sp addr size w hc hE hacc hF' ha
  | switchOut sp fresh hc =>
    exact .switchOut sp fresh _ rfl hc (saveStateLoop_bitsOnly sp _ s) rfl rfl
  | switchIn sp fresh hc => exact .switchIn sp fresh rfl hc rfl

theorem step_cases (hF : Frames none s) (h : Step s a s') : StepCases Alias.none s a s' :=
  step_cases_upTo hF (fun _ _ _ _ => soloVictim_none _ _) h

/-- `Exec` of a file that opens and has the magic number. -/
theorem step_create {fn : String} {executable : File} (hf : s.files fn = some executable)
    (hm : executable.noffHeader.noffMagic = NOFFMAGIC) :
    Step s (.create fn) (s.addSpace (.ofHeader executable.noffHeader fn) freshEntry) :=
  ⟨by simp [Action.enabled, hf], by simp [Action.exec, hf, newAddrSpace, hm]⟩

/-! ### Frame ownership in all reachable states -/

/-- The numbers of spaces that are still to be made have no page. -/
def Unmade (s : VM c) : Prop := ∀ sp, s.numSpaces ≤ sp → (s.spaces sp).numPages = 0

theorem Unmade.congr (hu : Unmade s) (hspaces : s'.spaces = s.spaces)
    (hnum : s'.numSpaces = s.numSpaces) : Unmade s' := by
  unfold Unmade
  rw [hspaces, hnum]
  exact hu

theorem frames_boot (files : String → Option File) (swapFile : Option File)
    (words words' : ℕ → BitVec 32) (fresh : Fin c.TLBSize → TranslationEntry) :
    Frames none (boot files swapFile words words' fresh) := by
  have hE : ∀ r, ¬ (boot files swapFile words words' fresh).HasEntry r := by
    intro r h
    exact absurd h (Nat.not_lt_zero _)
  exact
    { bit := fun f _ => by simp [boot, BitMap.isSet_new words f.isLt]
      bit_hole := fun f hf => by cases hf
      ipt := fun f r _ hi => by cases hi
      owner := fun r h => absurd h (hE r)
      vpage := fun r h => absurd h (hE r)
      writable := fun r h => absurd h (hE r)
      tlb := fun i hi => by cases hi
      tlb_inj := fun i j v hi => by cases hi.1 }

/-- The TLB may be thrown away. -/
theorem FramesUpTo.flush {A : Alias} {hole : Option (Fin c.NumPhysPages)} (h : FramesUpTo A hole s)
    (fresh : Fin c.TLBSize → TranslationEntry) (current : Option ℕ) (x : Fin c.TLBSize) :
    FramesUpTo A hole
      { s with indexTLBSndChc := x, tlb := freshTLB fresh, current := current } :=
  { h with
    tlb := fun i hi => by cases hi
    tlb_inj := fun i j v hi => by cases hi.1 }

theorem Unmade.space_lt (h : Unmade s) {r : PTRef} (hE : s.HasEntry r) : r.space < s.numSpaces := by
  by_contra hle
  have := h r.space (by omega)
  have hlt : r.vpn < (s.spaces r.space).numPages := hE
  omega

/-- The entries of the spaces made so far stay as they are. -/
theorem Unmade.addSpace_old (hu : Unmade s) (space : AddrSpace) (table : ℕ → TranslationEntry)
    {r : PTRef} (hE : s.HasEntry r) :
    (s.addSpace space table).HasEntry r ∧
      (s.addSpace space table).pageTable r = s.pageTable r := by
  have hne : r.space ≠ s.numSpaces := (hu.space_lt hE).ne
  refine ⟨?_, by simp [hne]⟩
  simpa [VM.HasEntry, update_of_ne hne] using hE

/-- An entry is one of the new space, or it was there before. -/
theorem addSpace_entry (space : AddrSpace) (table : ℕ → TranslationEntry) (r : PTRef)
    (hE : (s.addSpace space table).HasEntry r) :
    (r.space = s.numSpaces ∧ r.vpn < space.numPages ∧
      (s.addSpace space table).pageTable r = table r.vpn) ∨
    (r.space ≠ s.numSpaces ∧ s.HasEntry r ∧
      (s.addSpace space table).pageTable r = s.pageTable r) := by
  by_cases hr : r.space = s.numSpaces
  · refine Or.inl ⟨hr, ?_, by simp [hr]⟩
    simpa [VM.HasEntry, hr] using hE
  · refine Or.inr ⟨hr, ?_, by simp [hr]⟩
    simpa [VM.HasEntry, update_of_ne hr] using hE

theorem FrameTable.addSpace (h : FrameTable none s) (hu : Unmade s) (space : AddrSpace)
    {table : ℕ → TranslationEntry}
    (htable : ∀ v < space.numPages, (table v).virtualPage = v ∧ (table v).readOnly = false) :
    FrameTable none (s.addSpace space table) := by
  refine ⟨h.bit, h.bit_hole, ?_, ?_, ?_⟩
  · intro f r hf hi
    obtain ⟨hE, hv, hp⟩ := h.ipt f r hf hi
    obtain ⟨hE', heq⟩ := hu.addSpace_old space table hE
    rw [heq]
    exact ⟨hE', hv, hp⟩
  · intro r hE
    rcases addSpace_entry space table r hE with ⟨-, hlt, heq⟩ | ⟨-, hE', heq⟩
    · rw [heq]
      exact (htable r.vpn hlt).1
    · rw [heq]
      exact h.vpage r hE'
  · intro r hE
    rcases addSpace_entry space table r hE with ⟨-, hlt, heq⟩ | ⟨-, hE', heq⟩
    · rw [heq]
      exact (htable r.vpn hlt).2
    · rw [heq]
      exact h.writable r hE'

/-- The frames of the old spaces, when a space is made whose pages in memory are aliases of
theirs. -/
theorem Frames.addSpace_upTo {A : Alias} (h : Frames none s) (hu : Unmade s) (space : AddrSpace)
    {table : ℕ → TranslationEntry}
    (htable : ∀ v < space.numPages, (table v).virtualPage = v ∧ (table v).readOnly = false)
    (hnew : ∀ v < space.numPages, (table v).valid = true → ∃ f q,
      (table v).physicalPage = (f : Fin c.NumPhysPages) ∧ s.IPT f = some q ∧
        A.rel q ⟨s.numSpaces, v⟩) : FramesUpTo A none (s.addSpace space table) :=
  { h.frameTable.addSpace hu space htable with
    owner := by
      rintro ⟨sp, v⟩ hE hv
      rcases addSpace_entry space table _ hE with ⟨hsp, hlt, heq⟩ | ⟨-, hE', heq⟩
      · cases hsp
        rw [heq] at hv ⊢
        obtain ⟨f, q, hp, hI, hq⟩ := hnew v hlt hv
        exact ⟨f, q, by simp, hp, hI, hq⟩
      · rw [heq] at hv ⊢
        obtain ⟨f, hf, hp, hI⟩ := h.owned hE' hv
        exact ⟨f, _, hf, hp, hI, A.self _⟩
    tlb := by
      intro i hi
      obtain ⟨sp, v, hc, hE, hval, hvp, hpp, hro⟩ := h.tlb i hi
      obtain ⟨hE', heq⟩ := hu.addSpace_old space table hE
      exact ⟨sp, v, hc, hE', by rw [heq, hval], hvp, by rw [heq]; exact hpp, hro⟩
    tlb_inj := h.tlb_inj }

theorem Frames.addSpace (h : Frames none s) (hu : Unmade s) (space : AddrSpace) :
    Frames none (s.addSpace space freshEntry) :=
  h.addSpace_upTo hu space (fun _ _ => ⟨rfl, rfl⟩) fun v _ hv => by cases hv

theorem Unmade.addSpace (hu : Unmade s) (space : AddrSpace) (table : ℕ → TranslationEntry) :
    Unmade (s.addSpace space table) := by
  intro sp hsp
  have hle : s.numSpaces + 1 ≤ sp := hsp
  have hne : sp ≠ s.numSpaces := by omega
  simp only [VM.addSpace, update_of_ne hne]
  exact hu sp (by omega)

theorem frames_step (hF : Frames none s) (hu : Unmade s) (h : Step s a s') :
    Frames none s' ∧ Unmade s' := by
  rcases step_cases hF h with ⟨sp, addr, size, w, -, -, ha, hF', -⟩ | ⟨fn, ex, -, -, -, rfl⟩ |
    ⟨sp, fresh, s₁, -, -, hb, -, rfl⟩ | ⟨sp, fresh, -, -, rfl⟩
  · exact ⟨hF', hu.congr ha.sameSpaces.spaces ha.sameSpaces.numSpaces⟩
  · exact ⟨hF.addSpace hu _, hu.addSpace _ _⟩
  · exact ⟨(hF.bitsOnly hb).flush fresh none s₁.indexTLBSndChc, hu.congr hb.spaces hb.numSpaces⟩
  · exact ⟨hF.flush fresh _ _, hu⟩

/-- The ownership invariant in every reachable state. -/
theorem Reachable.frames (h : Reachable s) : Frames none s ∧ Unmade s := by
  refine Transition.Reach.invariant (I := fun s => Frames none s ∧ Unmade s) ?_ ?_ h
  · rintro s ⟨files, swapFile, words, words', fresh, rfl⟩
    exact ⟨frames_boot .., fun _ _ => rfl⟩
  · rintro s a t ⟨hF, hu⟩ hst
    exact frames_step hF hu hst

/-- The faults of `load` and `Translate` that the tables rule out. -/
def TableFault (e : Fault) : Prop :=
  e = .invalidIPTState ∨ e = .invalidIPTValid ∨ e = .invalidFreeFrame ∨
    e = .exception .busErrorException

theorem not_tableFault {addr : BitVec 32} {size : ℕ} {e : Fault}
    (h : (∃ sp, s.current = some sp ∧ s.HasEntry ⟨sp, pageOf addr⟩ ∧
      AccessFault s sp addr size e) ∨
      e = .wildAccess ∨ e = .exception .addressErrorException) : ¬ TableFault e := by
  rcases h with
    ⟨sp, -, -, (rfl | rfl | rfl | ⟨rfl, -⟩) | ⟨rfl, -⟩ | ⟨rfl, -⟩ | ⟨rfl, -⟩⟩ | rfl | rfl <;>
    simp [TableFault]

theorem exec_not_tableFault (hF : Frames none s) (a : Action c) {e : Fault}
    (h : a.exec s = .error e) : ¬ TableFault e := by
  cases a with
  | create fn =>
    simp only [Action.exec] at h
    split at h
    · simp only [newAddrSpace] at h
      split_ifs at h
      cases h
      simp [TableFault]
    · cases h
  | read addr size =>
    have hr := map_eq_error.1 h
    rw [readMem_eq] at hr
    exact not_tableFault (accessMem_error hF (fun _ _ => soloVictim_none _ _) hr)
  | write addr size value =>
    have hw := map_eq_error.1 h
    rw [writeMem_eq] at hw
    exact not_tableFault
      (accessMem_error hF (fun _ _ => soloVictim_none _ _) (map_eq_error.1 hw))
  | switchOut fresh =>
    simp only [Action.exec] at h
    split at h <;> cases h
  | switchIn sp fresh => cases h

/-- **Frame ownership.**  In every state of every run: a frame is marked iff it has an `IPT` entry,
which is valid and designates it; the valid entries of all page tables are the `IPT` entries of
their frames, one for each; the valid TLB entries are copies of valid entries of the running
space, of distinct pages; and no step can fail on the tables. -/
theorem frame_ownership {s : VM c} (h : Reachable s) :
    (∀ f : Fin c.NumPhysPages, s.MemBitMap.isSet f = true ↔ s.IPT f ≠ none) ∧
    (∀ f r, s.IPT f = some r → s.HasEntry r ∧ (s.pageTable r).valid = true ∧
      (s.pageTable r).physicalPage = (f : ℕ)) ∧
    (∀ f r r', s.IPT f = some r → s.HasEntry r' → (s.pageTable r').valid = true →
      (s.pageTable r').physicalPage = (f : ℕ) → r' = r) ∧
    (∀ r, s.HasEntry r → (s.pageTable r).valid = true →
      ∃ f, (s.pageTable r).physicalPage = ((f : Fin c.NumPhysPages) : ℕ) ∧ s.IPT f = some r) ∧
    (∀ i, (s.tlb i).valid = true → ∃ sp v, s.current = some sp ∧ s.HasEntry ⟨sp, v⟩ ∧
      (s.pageTable ⟨sp, v⟩).valid = true ∧
      (s.tlb i).virtualPage = (s.pageTable ⟨sp, v⟩).virtualPage ∧
      (s.tlb i).physicalPage = (s.pageTable ⟨sp, v⟩).physicalPage) ∧
    (∀ i j, (s.tlb i).valid = true → (s.tlb j).valid = true →
      (s.tlb i).virtualPage = (s.tlb j).virtualPage → i = j) ∧
    (∀ (a : Action c) e, a.exec s = .error e → ¬ TableFault e) ∧
    (∀ addr size writing s',
      translate addr size writing s ≠ .ok (.error .busErrorException, s')) := by
  obtain ⟨hF, -⟩ := h.frames
  refine ⟨fun f => hF.bit f (by simp), fun f r hi => hF.ipt f r (by simp) hi, ?_, ?_, ?_, ?_,
    fun a e he => exec_not_tableFault hF a he, ?_⟩
  · exact fun f r r' hi hE hv hp => hF.frame_unique hi hE hv hp
  · intro r hE hv
    obtain ⟨f, -, hp, hi⟩ := hF.owned hE hv
    exact ⟨f, hp, hi⟩
  · intro i hi
    obtain ⟨sp, v, hc, hE, hval, hvp, hpp, -⟩ := hF.tlb i hi
    exact ⟨sp, v, hc, hE, hval, hvp.trans (hF.vpage _ hE).symm, hpp⟩
  · intro i j hi hj heq
    obtain ⟨sp, v, -, -, -, hvp, -⟩ := hF.tlb i hi
    exact hF.tlb_inj i j v ⟨hi, hvp⟩ ⟨hj, heq.symm.trans hvp⟩
  · intro addr size writing s' hbus
    rcases translate_spec hF addr size writing with ⟨ht, -⟩ | ⟨ht, -⟩ |
      ⟨i, sp, f, -, -, -, -, -, -, ht | ⟨ht, -⟩⟩
    all_goals rw [ht] at hbus; cases hbus

/-- An object file with four bytes of code, four of data, and 120 bytes of uninitialised data: the
header, then the bytes of code and data. -/
def smallNoff : File where
  length := 48
  byte k := [0xad, 0xdf, 0xba, 0,
    0, 0, 0, 0, 40, 0, 0, 0, 4, 0, 0, 0,
    4, 0, 0, 0, 44, 0, 0, 0, 4, 0, 0, 0,
    8, 0, 0, 0, 0, 0, 0, 0, 120, 0, 0, 0].getD k 7

/-- A TLB as a fresh heap has it. -/
def zeroTLB : Fin machineH.TLBSize → TranslationEntry := fun _ => ⟨0, 0, false, false, false, false⟩

/-- A machine on which every name opens `smallNoff`, with an empty swap file. -/
def smallBoot : VM machineH :=
  boot (fun _ => some smallNoff) (some (File.ofList [])) (fun _ => 0) (fun _ => 0) zeroTLB

/-- `smallBoot` with one address space, which runs. -/
def smallStart : VM machineH :=
  { restoreState zeroTLB
      (smallBoot.addSpace (.ofHeader smallNoff.noffHeader "sort") freshEntry) with
    current := some 0 }

theorem smallBoot_booted : Booted smallBoot := ⟨_, _, _, _, _, rfl⟩

theorem smallNoff_magic : smallNoff.noffHeader.noffMagic = NOFFMAGIC := by decide +kernel

theorem smallBoot_create : Step smallBoot (.create "sort")
    (smallBoot.addSpace (.ofHeader smallNoff.noffHeader "sort") freshEntry) :=
  step_create rfl smallNoff_magic

theorem smallStart_switchIn :
    Step (smallBoot.addSpace (.ofHeader smallNoff.noffHeader "sort") freshEntry)
      (.switchIn 0 zeroTLB) smallStart :=
  ⟨⟨rfl, Nat.zero_lt_one⟩, rfl⟩

theorem smallStart_reachable : Reachable smallStart :=
  .step _ (.step _ (.init smallBoot_booted) smallBoot_create) smallStart_switchIn

theorem frame_ownership_smallStart :
    ∃ s : VM machineH, Reachable s ∧ s.IPT ⟨0, by decide⟩ = some ⟨0, 0⟩ ∧
      s.MemBitMap.isSet 0 = true := by
  have hread : ∃ s, (Action.read 0 4).exec smallStart = .ok s ∧
      s.IPT ⟨0, by decide⟩ = some ⟨0, 0⟩ := ⟨_, rfl, rfl⟩
  obtain ⟨s, hs, hI⟩ := hread
  have hr : Reachable s := .step (.read 0 4) smallStart_reachable ⟨trivial, hs⟩
  exact ⟨s, hr, hI, ((frame_ownership hr).1 ⟨0, by decide⟩).2 (by rw [hI]; simp)⟩

end Nachos
