import Nachos.VM.Slots

/-!
# Frames and swap slots after `Exit`

`Nachos_Exit` leaves the processor to another thread, or ends in `Thread::Finish`; no destructor
on the way clears a bit of `MemBitMap` or `SWAPBitMap` (`~AddrSpace` does "Nothing for now!").  A
run here is a run of the virtual memory in which the running thread may also exit, for ever.

* `Lifetimes` adds to the virtual memory the spaces whose thread has exited; without `Fork` a space
  has one thread.
* `LifeReach.reachable`: such a run is a run of the virtual memory, so the frames have owners.
* `LifeReach.slot_kept`: an exited space never gives a swap slot back.
* `CleanReach.tight`: every marked slot has a page, in the runs in which no `SaveState` puts a stale
  dirty bit on a page that is out of memory.
-/

namespace Nachos

open Transition

variable {c : Sizes}

/-- The virtual memory, and the address spaces whose thread has exited. -/
structure Lifetimes (c : Sizes) where
  vm : VM c
  exited : ℕ → Bool

/-- A step of the virtual memory, or `Exit` by the running thread. -/
inductive LifeEvent (c : Sizes)
  | act (a : Action c)
  | exit (fresh : Fin c.TLBSize → TranslationEntry)

/-- What the step does to the virtual memory.  `Exit` ends in `Scheduler::Run`, and this calls the
`SaveState` of the thread that leaves. -/
def LifeEvent.action : LifeEvent c → Action c
  | .act a => a
  | .exit fresh => .switchOut fresh

/-- `Run` is never called for a thread that has exited. -/
def LifeEvent.enabled : LifeEvent c → Lifetimes c → Prop
  | .act (.switchIn sp _), s => s.exited sp = false
  | _, _ => True

/-- The spaces whose thread has exited after the step. -/
def LifeEvent.exited : LifeEvent c → Lifetimes c → ℕ → Bool
  | .act _, s => s.exited
  | .exit _, s => fun sp => s.exited sp || decide (s.vm.current = some sp)

/-- One step that does not stop the kernel. -/
def LifeStep (s : Lifetimes c) (e : LifeEvent c) (s' : Lifetimes c) : Prop :=
  e.enabled s ∧ Step s.vm e.action s'.vm ∧ s'.exited = e.exited s

/-- After `Initialize` nothing has exited. -/
def LifeInit (s : Lifetimes c) : Prop := Booted s.vm ∧ s.exited = fun _ => false

/-- The states of all runs. -/
def LifeReach (s : Lifetimes c) : Prop := Reach LifeInit LifeStep s

/-- `s'` is `s` or a later state of a run through `s`. -/
def Lifetimes.Later (s s' : Lifetimes c) : Prop := Reach (· = s) LifeStep s'

variable {s : Lifetimes c} {sp : ℕ} {r : PTRef} {p : ℤ}

theorem LifeReach.reachable (h : LifeReach s) : Reachable s.vm :=
  Reach.simulation Lifetimes.vm (fun _ hs => hs.1)
    (fun _ e _ _ hst => Or.inr ⟨e.action, hst.2.1⟩) h

theorem Lifetimes.Later.lifeReach {s' : Lifetimes c} (hs : LifeReach s) (h : s.Later s') :
    LifeReach s' :=
  Reach.invariant (I := LifeReach) (fun _ h => h ▸ hs)
    (fun _ e _ hs hst => .step e hs hst) h

/-! ### The running thread has not exited -/

/-- A thread that has exited does not run. -/
def Left (s : Lifetimes c) : Prop := ∀ sp, s.vm.current = some sp → s.exited sp = false

/-- Whatever runs after a step ran before, or was switched to. -/
theorem Step.current {s s' : VM c} {a : Action c} (hF : Frames none s) (h : Step s a s')
    (hsp : s'.current = some sp) :
    s.current = some sp ∧ (∀ fresh, a ≠ .switchOut fresh) ∨ ∃ fresh, a = .switchIn sp fresh := by
  rcases step_cases hF h with
    ⟨_, _, _, _, -, -, ha, -, hrw⟩ | ⟨_, _, hcr, -, -, rfl⟩ | ⟨_, _, _, -, -, -, -, rfl⟩ |
    ⟨_, fresh, hin, -, rfl⟩
  · refine Or.inl ⟨ha.sameSpaces.current ▸ hsp, ?_⟩
    rintro fresh rfl
    simp [Action.IsAccess] at hrw
  · exact Or.inl ⟨hsp, by simp [hcr]⟩
  · cases hsp
  · cases hsp
    exact Or.inr ⟨fresh, hin⟩

theorem Left.step {s' : Lifetimes c} {e : LifeEvent c} (hF : Frames none s.vm) (h : Left s)
    (hst : LifeStep s e s') : Left s' := by
  obtain ⟨hen, hstep, hex⟩ := hst
  intro sp hsp
  rw [hex]
  rcases Step.current hF hstep hsp with ⟨hc, hno⟩ | ⟨fresh, hin⟩
  · cases e with
    | act a => exact h sp hc
    | exit fresh => exact absurd rfl (hno fresh)
  · cases e with
    | act a =>
      have ha : a = .switchIn sp fresh := hin
      subst ha
      exact hen
    | exit _ => cases hin

theorem LifeReach.left (h : LifeReach s) : Left s :=
  Reach.invariant_of (J := fun s : Lifetimes c => Frames none s.vm)
    (fun _ hs => (LifeReach.reachable hs).frames.1)
    (fun _ hs sp _ => by rw [hs.2]) (fun _ _ _ hF hs hst => hs.step hF hst) h

theorem LifeStep.exited_mono {s' : Lifetimes c} {e : LifeEvent c} (h : LifeStep s e s')
    (hsp : s.exited sp = true) : s'.exited sp = true := by
  rw [h.2.2]
  cases e with
  | act a => exact hsp
  | exit fresh => simp [LifeEvent.exited, hsp]

/-! ### Pages that are out of memory -/

/-- The page at `r` is out of memory, with `p` in its entry. -/
structure Out (r : PTRef) (p : ℤ) (s : VM c) : Prop where
  hasEntry : s.HasEntry r
  valid : (s.pageTable r).valid = false
  physicalPage : (s.pageTable r).physicalPage = p

theorem Out.bitsOnly {s s' : VM c} (h : Out r p s) (hb : BitsOnly s s') :
    Out r p s' where
  hasEntry := (hb.hasEntry r).2 h.hasEntry
  valid := by rw [hb.valid, h.valid]
  physicalPage := by rw [hb.physicalPage, h.physicalPage]

theorem Entered.out {vpn : ℕ} {s s' : VM c} (he : Entered sp vpn s s') (h : Out r p s) :
    Out r p s' := by
  cases he with
  | mk x s₁ hr hd => exact { h.bitsOnly hr.toBitsOnly with }

/-- `load` brings in a page of its own space, and what it throws out was in memory. -/
theorem Loaded.out {vpn : ℕ} {s s' : VM c} (hl : Loaded sp vpn s s') (hF : Frames none s)
    (hne : r.space ≠ sp) (h : Out r p s) : Out r p s' := by
  cases hl with
  | resident s' hv he => exact he.out h
  | fetched n zero f s₁ s₂ s' hv ha hf he =>
    have hn : Frames none { s with numPageFaults := n } := { hF with }
    have h₁ := ha.entry hn h.valid
    have h₂ : (install ⟨sp, vpn⟩ f s₂).pageTable r = s₁.pageTable r := by
      have hr : r ≠ ⟨sp, vpn⟩ := fun heq => hne (by rw [heq])
      simp [Function.update_of_ne hr, hf.static.2.2.2.2.2.1]
    refine he.out { hasEntry := ?_, valid := ?_, physicalPage := ?_ }
    · have hsp : (install ⟨sp, vpn⟩ f s₂).spaces = s.spaces := hf.static.1.trans ha.static.1
      simpa only [VM.HasEntry, hsp] using h.hasEntry
    · rw [h₂, h₁]
      exact h.valid
    · rw [h₂, h₁]
      exact h.physicalPage

theorem Accessed.out {addr : BitVec 32} {size : ℕ} {w : Option (BitVec 32)} {s s' : VM c}
    (ha : Accessed sp addr size w s s') (hF : Frames none s) (hne : r.space ≠ sp) (h : Out r p s) :
    Out r p s' := by
  cases ha with
  | miss s' hno hl => exact hl.out { hF with } hne { h with }
  | hit i f hm hv hp hsz => exact { h with }

/-- A page that is out of memory stays out until its own space runs. -/
theorem Step.out {s s' : VM c} {a : Action c} (hst : Step s a s') (hF : Frames none s)
    (hu : Unmade s) (hne : s.current ≠ some r.space) (h : Out r p s) : Out r p s' := by
  rcases step_cases hF hst with ⟨sp, addr, size, w, hc, -, ha, -, -⟩ | ⟨fn, ex, -, -, -, rfl⟩ |
    ⟨sp, fresh, s₁, -, -, hb, -, rfl⟩ | ⟨sp, fresh, -, -, rfl⟩
  · exact ha.out hF (fun heq => hne (by rw [hc, heq])) h
  · obtain ⟨hE, heq⟩ := hu.addSpace_old (.ofHeader ex.noffHeader fn) freshEntry h.hasEntry
    exact { hasEntry := hE, valid := heq ▸ h.valid, physicalPage := heq ▸ h.physicalPage }
  · exact { h.bitsOnly hb with }
  · exact { h with }

/-- The swap slot of an exited space stays marked, and stays with its page. -/
theorem LifeReach.slot_kept {s' : Lifetimes c} {k : Fin c.SWAPSize} (hs : LifeReach s)
    (hr : s.exited r.space = true) (h : Out r (k : ℕ) s.vm) (hl : s.Later s') :
    s'.vm.SWAPBitMap.isSet k = true := by
  have hout : s'.exited r.space = true ∧ Out r (k : ℕ) s'.vm := by
    refine Reach.invariant_of (J := LifeReach)
      (I := fun s : Lifetimes c => s.exited r.space = true ∧ Out r (k : ℕ) s.vm)
      (fun _ h => Lifetimes.Later.lifeReach hs h) (fun _ heq => heq ▸ ⟨hr, h⟩) ?_ hl
    rintro t e t' ht ⟨hx, ho⟩ hst
    obtain ⟨hF, hu⟩ := ht.reachable.frames
    refine ⟨hst.exited_mono hx, hst.2.1.out hF hu ?_ ho⟩
    intro hc
    simpa [hx] using ht.left r.space hc
  have hslots := (hl.lifeReach hs).reachable.slots
  rcases hslots.slot r hout.2.hasEntry hout.2.valid with hp | ⟨j, hj, hset⟩
  · have := hout.2.physicalPage
    omega
  · have hjk : j = k := Fin.ext (by have := hout.2.physicalPage; omega)
    exact hjk ▸ hset

/-! ### Marked slots -/

/-- No TLB entry holds another dirty bit for a page that is out of memory than the page table. -/
def NoStale (s : VM c) : Prop :=
  ∀ sp, s.current = some sp → ∀ (i : Fin c.TLBSize) (p : ℕ), (s.tlb i).virtualPage = p →
    s.HasEntry ⟨sp, p⟩ → (s.pageTable ⟨sp, p⟩).valid = false →
    (s.tlb i).dirty = (s.pageTable ⟨sp, p⟩).dirty

/-- A step in which `SaveState`, if it runs, finds no such TLB entry. -/
def CleanStep (s : Lifetimes c) (e : LifeEvent c) (s' : Lifetimes c) : Prop :=
  (∀ fresh, e.action = .switchOut fresh → NoStale s.vm) ∧ LifeStep s e s'

/-- The states of the runs of such steps. -/
def CleanReach (s : Lifetimes c) : Prop := Reach LifeInit CleanStep s

theorem CleanReach.lifeReach (h : CleanReach s) : LifeReach s :=
  Reach.mono (fun _ _ _ hst => hst.2) h

theorem NoStale.dirty {s : VM c} (h : NoStale s) (hc : s.current = some sp) (hE : s.HasEntry r)
    (hv : (s.pageTable r).valid = false) :
    ((saveStateLoop sp (List.finRange c.TLBSize) s).1.pageTable r).dirty =
      (s.pageTable r).dirty := by
  by_cases hr : sp = r.space
  · obtain ⟨q, p⟩ := r
    obtain rfl : sp = q := hr
    have hlt : p < (s.spaces sp).numPages := hE
    rcases saveStateLoop_bits sp (List.finRange c.TLBSize) s hlt (List.pairwise_lt_finRange _) with
      ⟨i, -, hvp, -, hres⟩ | ⟨-, hres⟩
    · rw [hres]
      exact h sp hc i p hvp hE hv
    · rw [hres]
  · rw [saveStateLoop_other sp _ s (Ne.symm hr)]

theorem Tight.saveState {s : VM c} (h : Tight s) (hn : NoStale s) (hc : s.current = some sp) :
    Tight (saveStateLoop sp (List.finRange c.TLBSize) s).1 := by
  have hb := saveStateLoop_bitsOnly sp (List.finRange c.TLBSize) s
  constructor
  · intro k hk
    rw [hb.SWAPBitMap] at hk
    obtain ⟨r, hE, hv, hp⟩ := h.used k hk
    exact ⟨r, (hb.hasEntry r).2 hE, by rw [hb.valid, hv], by rw [hb.physicalPage, hp]⟩
  · intro r hE hv
    rw [hb.hasEntry] at hE
    rw [hb.valid] at hv
    rw [hn.dirty hc hE hv, hb.physicalPage]
    exact h.dirty r hE hv

theorem CleanReach.tight (h : CleanReach s) : Tight s.vm := by
  refine Reach.invariant_of (J := fun s : Lifetimes c => Frames none s.vm ∧ Unmade s.vm)
    (I := fun s : Lifetimes c => Tight s.vm)
    (fun _ hs => (CleanReach.lifeReach hs).reachable.frames) ?_ ?_ h
  · rintro s ⟨⟨files, swapFile, words, words', fresh, hvm⟩, -⟩
    exact hvm ▸ tight_boot ..
  · rintro s e t ⟨hF, hu⟩ ht ⟨hclean, -, hst, -⟩
    rcases step_cases hF hst with ⟨sp, addr, size, w, -, hE, ha, -, -⟩ | ⟨fn, ex, -, -, -, heq⟩ |
      ⟨sp, fresh, s₁, ha, hc, -, rfl, heq⟩ | ⟨sp, fresh, -, -, heq⟩
    · exact ha.tight hF hE ht
    · exact heq ▸ ht.addSpace _ hu
    · exact heq ▸ { ht.saveState (hclean fresh ha) hc with }
    · exact heq ▸ { ht with }

/-! ### What is left behind -/

/-- `Exit` saves the bits of its pages and nothing else. -/
theorem LifeStep.exit_bitsOnly {s' : Lifetimes c} {fresh : Fin c.TLBSize → TranslationEntry}
    (h : LifeStep s (.exit fresh) s') :
    s'.vm.MemBitMap = s.vm.MemBitMap ∧ s'.vm.SWAPBitMap = s.vm.SWAPBitMap := by
  obtain ⟨-, ⟨hen, hex⟩, -⟩ := h
  cases hc : s.vm.current with
  | none => exact absurd hc hen
  | some sp =>
    have hb := saveStateLoop_bitsOnly sp (List.finRange c.TLBSize) s.vm
    simp only [LifeEvent.action, Action.exec, hc, Except.ok.injEq] at hex
    rw [← hex]
    exact ⟨hb.MemBitMap, hb.SWAPBitMap⟩

/-- **What exited processes leave behind.**  In every state of every run a marked frame is that of a
valid entry of an address space made so far, exited or not; `Exit` changes neither bitmap; and a
swap slot of an exited space is marked for ever.  If no `SaveState` so far put a stale dirty bit on
a page that is out of memory, every marked slot is that of an invalid entry of such a space. -/
theorem exit_releases_nothing {s : Lifetimes c} (h : LifeReach s) :
    (∀ f : Fin c.NumPhysPages, s.vm.MemBitMap.isSet f = true →
      ∃ r, r.space < s.vm.numSpaces ∧ s.vm.HasEntry r ∧ (s.vm.pageTable r).valid = true ∧
        (s.vm.pageTable r).physicalPage = (f : ℕ)) ∧
    (∀ fresh s', LifeStep s (.exit fresh) s' →
      s'.vm.MemBitMap = s.vm.MemBitMap ∧ s'.vm.SWAPBitMap = s.vm.SWAPBitMap) ∧
    (∀ r (k : Fin c.SWAPSize), s.exited r.space = true → s.vm.HasEntry r →
      (s.vm.pageTable r).valid = false → (s.vm.pageTable r).physicalPage = (k : ℕ) →
      ∀ s', s.Later s' → s'.vm.SWAPBitMap.isSet k = true) ∧
    (CleanReach s → ∀ k : Fin c.SWAPSize, s.vm.SWAPBitMap.isSet k = true →
      ∃ r, r.space < s.vm.numSpaces ∧ s.vm.HasEntry r ∧ (s.vm.pageTable r).valid = false ∧
        (s.vm.pageTable r).physicalPage = (k : ℕ)) := by
  obtain ⟨hF, hu⟩ := h.reachable.frames
  refine ⟨?_, fun fresh s' hst => hst.exit_bitsOnly, ?_, ?_⟩
  · intro f hf
    obtain ⟨r, hr⟩ := Option.ne_none_iff_exists'.1 ((hF.bit f (by simp)).1 hf)
    obtain ⟨hE, hv, hp⟩ := hF.ipt f r (by simp) hr
    exact ⟨r, hu.space_lt hE, hE, hv, hp⟩
  · intro r k hx hE hv hp s' hl
    exact h.slot_kept hx ⟨hE, hv, hp⟩ hl
  · intro hclean k hk
    obtain ⟨r, hE, hv, hp⟩ := hclean.tight.used k hk
    exact ⟨r, hu.space_lt hE, hE, hv, hp⟩

/-- A step that calls no `SaveState` is clean. -/
theorem CleanReach.act {s s' : VM c} {exited : ℕ → Bool} (h : CleanReach ⟨s, exited⟩) (a : Action c)
    (hst : Step s a s') (hen : (LifeEvent.act a).enabled ⟨s, exited⟩)
    (ha : ∀ fresh, a ≠ .switchOut fresh) : CleanReach ⟨s', exited⟩ :=
  .step (.act a) h ⟨fun fresh heq => absurd heq (ha fresh), hen, hst, rfl⟩

/-- Process 0 reads a word and exits; then process 1 is made and runs. -/
theorem smallStart_exit : ∃ s : Lifetimes machineH, CleanReach s ∧ s.exited 0 = true ∧
    s.vm.MemBitMap.isSet 0 = true ∧ s.vm.numSpaces = 2 ∧ s.vm.current = some 1 ∧
    ∀ v, s.vm.pageTable ⟨1, v⟩ = freshEntry v := by
  have hboot : CleanReach ⟨smallBoot, fun _ => false⟩ := .init ⟨smallBoot_booted, rfl⟩
  have hmade := hboot.act (.create "sort") smallBoot_create trivial (by simp)
  have hstart := hmade.act (.switchIn 0 zeroTLB) smallStart_switchIn rfl (by simp)
  obtain ⟨s, hread, hc, hn, hset, hf, hv, htlb⟩ : ∃ s, (Action.read 0 4).exec smallStart = .ok s ∧
      s.current = some 0 ∧ s.numSpaces = 1 ∧ s.MemBitMap.isSet 0 = true ∧
      s.files "matmult" = some smallNoff ∧ (s.pageTable ⟨0, 0⟩).valid = true ∧
      ∀ i, (s.tlb i).virtualPage = 0 :=
    ⟨_, rfl, rfl, rfl, by decide +kernel, rfl, rfl, by decide +kernel⟩
  have hs := hstart.act (.read 0 4) ⟨trivial, hread⟩ trivial (by simp)
  -- the TLB names page 0 only, and that page is in memory
  have hclean : NoStale s := by
    intro sp hsp i p hp _ hout
    obtain rfl : 0 = sp := Option.some.inj (hc.symm.trans hsp)
    obtain rfl : p = 0 := by have := htlb i; omega
    simp [hv] at hout
  have hb := saveStateLoop_bitsOnly 0 (List.finRange machineH.TLBSize) s
  have hexit : CleanReach ⟨{ (saveState 0 zeroTLB s).1 with current := none },
      fun sp => decide (s.current = some sp)⟩ :=
    .step (.exit zeroTLB) hs ⟨fun _ _ => hclean, trivial,
      ⟨by simp [LifeEvent.action, Action.enabled, hc],
        by simp [LifeEvent.action, Action.exec, hc]⟩, by simp [LifeEvent.exited]⟩
  have hopen : (saveState 0 zeroTLB s).1.files "matmult" = some smallNoff :=
    (congrFun hb.files _).trans hf
  have hnext := hexit.act (.create "matmult") (step_create hopen smallNoff_magic) trivial (by simp)
  have hnum : (saveState 0 zeroTLB s).1.numSpaces = 1 := hb.numSpaces.trans hn
  have hrun := hnext.act (.switchIn 1 zeroTLB) ⟨⟨rfl, ?_⟩, rfl⟩ (by simp [LifeEvent.enabled, hc])
    (by simp)
  · refine ⟨_, hrun, by simp [hc], ?_, ?_, rfl, fun v => ?_⟩
    · exact (congrArg (BitMap.isSet · 0) hb.MemBitMap).trans hset
    · exact congrArg (· + 1) hnum
    · exact if_pos hnum.symm
  · exact Nat.lt_add_one_of_le hnum.symm.le

/-- The frame of process 0 is still its own after it has exited. -/
theorem exit_releases_nothing_smallStart : ∃ s : Lifetimes machineH, CleanReach s ∧
    s.exited 0 = true ∧ ∃ v, s.vm.HasEntry ⟨0, v⟩ ∧ (s.vm.pageTable ⟨0, v⟩).valid = true ∧
      (s.vm.pageTable ⟨0, v⟩).physicalPage = 0 := by
  obtain ⟨s, hr, hx, hset, hn, -, hfresh⟩ := smallStart_exit
  obtain ⟨⟨sp, v⟩, hlt, hE, hv, hp⟩ := (exit_releases_nothing hr.lifeReach).1 ⟨0, by decide⟩ hset
  have hsp : sp = 0 ∨ sp = 1 := by
    have hlt' : sp < s.vm.numSpaces := hlt
    omega
  rcases hsp with rfl | rfl
  · exact ⟨s, hr, hx, v, hE, hv, hp⟩
  · simp [hfresh, freshEntry] at hv

/-- A frame is marked although no page of a process that still runs is in memory. -/
theorem frame_marked_after_exit : ∃ s : Lifetimes machineH, LifeReach s ∧
    s.vm.MemBitMap.isSet 0 = true ∧
    ∀ r, r.space < s.vm.numSpaces → s.exited r.space = false →
      (s.vm.pageTable r).valid = false ∧ (s.vm.pageTable r).physicalPage = -1 := by
  obtain ⟨s, hr, hx, hset, hn, -, hfresh⟩ := smallStart_exit
  refine ⟨s, hr.lifeReach, hset, ?_⟩
  rintro ⟨sp, v⟩ hlt hlive
  have hsp : sp = 0 ∨ sp = 1 := by
    have hlt' : sp < s.vm.numSpaces := hlt
    omega
  rcases hsp with rfl | rfl
  · simp [hx] at hlive
  · simp [hfresh, freshEntry]

end Nachos
