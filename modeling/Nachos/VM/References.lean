import Nachos.VM.Run
import Nachos.VM.SecondChance
import Nachos.Lib.Effect

/-!
# References and the TLB

A page has two use bits, one in its TLB entry and one in the page table, and each clock clears its
own.  `RefState` keeps the set of the pages that an access has gone to through the TLB since they
were loaded, or since `getNextSCSWAP` has last cleared their use bits.

* `SweptTLB.use_taken`: an entry that `getNextSCTLB` takes from its page leaves the use bit in the
  page table clear, whatever it was.
* `exists_free_entry`: with no more frames than TLB entries, as in `machine.h`, there is always an
  invalid entry to take instead, so that the pages in memory stay in the TLB (`refInv_step`).
* `references_survive`: no reference is lost by replacement in the TLB.
* `reference_lost`: it would be with two frames and one TLB entry.
-/

namespace Nachos

open Transition Function Fallible

variable {c : Sizes} {sp vpn : ℕ} {s s' : VM c}

/-- The machine, and the pages of the running space that have been referenced. -/
structure RefState (c : Sizes) where
  vm : VM c
  referenced : Set ℕ

/-- `load` of page `vpn` has to run `getNextSCSWAP`. -/
def ClockRuns (sp vpn : ℕ) (s : VM c) : Prop :=
  (s.pageTable ⟨sp, vpn⟩).valid = false ∧ s.MemBitMap.find.1 = none

/-- `getNextSCSWAP` clears the use bit of page `v`. -/
def ClockClears (sp v : ℕ) (s : VM c) : Prop :=
  (s.pageTable ⟨sp, v⟩).use = true ∧
    ∃ x s₁, getNextSCSWAP s = .ok (x, s₁) ∧ (s₁.pageTable ⟨sp, v⟩).use = false

/-- The references that are still recorded when `load` has served a miss of page `vpn`. -/
def RefState.afterLoad (sp vpn : ℕ) (s : RefState c) : Set ℕ :=
  {v ∈ s.referenced | ¬ (v = vpn ∧ (s.vm.pageTable ⟨sp, vpn⟩).valid = false) ∧
    ¬ (ClockRuns sp vpn s.vm ∧ ClockClears sp v s.vm)}

/-- An access of the running space `sp`, through the TLB or to a page that has to be loaded. -/
inductive RefStep (sp : ℕ) : RefState c → Action c → RefState c → Prop
  | hit {s : RefState c} {a : Action c} {addr : BitVec 32} {vm : VM c} (ha : a.addr = some addr)
      (hm : ∃ i, s.vm.Maps i (pageOf addr)) (h : Step s.vm a vm) :
      RefStep sp s a ⟨vm, insert (pageOf addr) s.referenced⟩
  | miss {s : RefState c} {a : Action c} {addr : BitVec 32} {vm : VM c} (ha : a.addr = some addr)
      (hm : ∀ i, ¬ s.vm.Maps i (pageOf addr)) (h : Step s.vm a vm) :
      RefStep sp s a ⟨vm, s.afterLoad sp (pageOf addr)⟩

/-- Address space `sp` has just been given the processor, and nothing of it has been loaded. -/
def RefInit (sp : ℕ) (s : RefState c) : Prop :=
  Reachable s.vm ∧ s.vm.current = some sp ∧
    (∀ v, s.vm.HasEntry ⟨sp, v⟩ → (s.vm.pageTable ⟨sp, v⟩).valid = false) ∧ s.referenced = ∅

/-- The entry of page `v` leaves the TLB by replacement: the page stays in memory. -/
def Replaced (sp v : ℕ) (s s' : VM c) : Prop :=
  (∃ i, s.Maps i v) ∧ (∀ i, ¬ s'.Maps i v) ∧ (s'.pageTable ⟨sp, v⟩).valid = true

/-- Page `v` loses its frame. -/
def LosesFrame (sp v : ℕ) (s s' : VM c) : Prop :=
  s.HasEntry ⟨sp, v⟩ ∧ (s.pageTable ⟨sp, v⟩).valid = true ∧ (s'.pageTable ⟨sp, v⟩).valid = false

/-! ### What replacement does to the use bit -/

/-- The page whose TLB entry is taken has a clear use bit in the page table. -/
theorem SweptTLB.use_taken {k : ℕ} (h : SweptTLB sp s k s') :
    (s'.pageTable (tlbRef sp s (tlbAhead s k))).use = false := by
  rw [h.examined k le_rfl]
  simp

/-! ### Free TLB entries -/

/-- The frames of the pages in the TLB are distinct, and that of another page in memory is not among
them: if there are no more frames than entries, an entry is invalid. -/
theorem exists_free_entry (hsize : c.NumPhysPages ≤ c.TLBSize) (h : Frames none s)
    (hE : s.HasEntry ⟨sp, vpn⟩) (hv : (s.pageTable ⟨sp, vpn⟩).valid = true)
    (hno : ∀ i, ¬ s.Maps i vpn) : ∃ i, (s.tlb i).valid = false := by
  by_contra hfull
  have hvalid : ∀ i, (s.tlb i).valid = true := fun i => by
    by_contra hi
    exact hfull ⟨i, eq_false_of_ne_true hi⟩
  have hframe : ∀ i, ∃ f : Fin c.NumPhysPages, (s.tlb i).physicalPage = (f : ℕ) :=
    fun i => (h.tlbSound i (hvalid i)).2
  choose frame hframe using hframe
  have hinj : Function.Injective frame := fun i j hij =>
    h.tlb_frame_inj (hvalid i) (hvalid j) (by rw [hframe, hframe, hij])
  have hcard : Fintype.card (Fin c.TLBSize) = Fintype.card (Fin c.NumPhysPages) := by
    have := Fintype.card_le_of_injective frame hinj
    simp only [Fintype.card_fin] at this ⊢
    omega
  have hbij := (Fintype.bijective_iff_injective_and_card frame).2 ⟨hinj, hcard⟩
  obtain ⟨f, -, hp, hI⟩ := h.owned hE hv
  obtain ⟨i, rfl⟩ := hbij.2 f
  exact hno i (h.maps_of_frame hI (solo_none _ _) (hvalid i) (hframe i)).2

/-- When there is an invalid entry, `getNextSCTLB` takes one. -/
theorem updateTLB_free (hE : s.HasEntry ⟨sp, vpn⟩) (hfree : ∃ i, (s.tlb i).valid = false) :
    ∃ x, (s.tlb x).valid = false ∧
      updateTLB sp vpn s = .ok (s.setTLB x (s.pageTable ⟨sp, vpn⟩)) := by
  obtain ⟨i, hi⟩ := hfree
  have hlt : vpn < (s.spaces sp).numPages := hE
  cases hfind : (List.finRange c.TLBSize).find? fun x => !(s.tlb x).valid with
  | none =>
    have := List.find?_eq_none.1 hfind i (List.mem_finRange i)
    simp [hi] at this
  | some x =>
    refine ⟨x, by simpa using List.find?_some hfind, ?_⟩
    simp [updateTLB, getNextSCTLB, hfind, useThisTLBIndex, hlt, bind, Except.bind]

/-! ### The pages in memory are in the TLB -/

/-- Every page of the running space that is in memory has a TLB entry. -/
def Resident (sp : ℕ) (s : VM c) : Prop :=
  ∀ v, s.HasEntry ⟨sp, v⟩ → (s.pageTable ⟨sp, v⟩).valid = true → ∃ i, s.Maps i v

/-- When the clock has selected a victim, the TLB has lost its entry and no other. -/
theorem Selected.maps_other {x : Fin c.NumPhysPages} {rv : PTRef} (h : Selected s x rv s')
    (hF : Frames none s) (hc : s.current = some sp) {v : ℕ} (hne : (⟨sp, v⟩ : PTRef) ≠ rv)
    {i : Fin c.TLBSize} (hm : s.Maps i v) : s'.Maps i v := by
  refine (h.maps i v).2 ⟨hm, fun hp => hne ?_⟩
  obtain ⟨hE, hv, hpp, -⟩ := hF.mirror hc hm
  exact hF.frame_unique h.ipt hE hv (hpp.symm.trans hp)

variable {f : Fin c.NumPhysPages} {addr : BitVec 32} {a : Action c}

theorem Acquired.resident {zero : Bool} (h : Acquired zero s f s') (hF : Frames none s)
    (hc : s.current = some sp) (hR : Resident sp s) : Resident sp s' := by
  intro v hE hv
  have hE' : s.HasEntry ⟨sp, v⟩ := by simpa only [VM.HasEntry, h.static.1] using hE
  cases h with
  | free f m hfind => exact hR v hE' hv
  | evicted rv s' hfull hev =>
    have hne : (⟨sp, v⟩ : PTRef) ≠ rv := by
      rintro rfl
      rw [hev.victim.1] at hv
      cases hv
    rw [hev.entry hne] at hv
    obtain ⟨i, hm⟩ := hR v hE' hv
    refine ⟨i, ?_⟩
    cases hev with
    | clean s₁ hsel hd | dirty s₁ k m file hsel hd hk hfile => exact hsel.maps_other hF hc hne hm

/-- The page that is installed and put into an invalid TLB entry joins the others. -/
theorem resident_install {x : Fin c.TLBSize} (hR : Resident sp s)
    (hvp : (s.pageTable ⟨sp, vpn⟩).virtualPage = vpn) (hx : (s.tlb x).valid = false) :
    Resident sp ((install ⟨sp, vpn⟩ f s).setTLB x
      ((install ⟨sp, vpn⟩ f s).pageTable ⟨sp, vpn⟩)) := by
  intro v hE hv
  by_cases hvv : v = vpn
  · subst hvv
    refine ⟨x, ?_⟩
    simp [VM.Maps, hvp]
  · have hne : (⟨sp, v⟩ : PTRef) ≠ ⟨sp, vpn⟩ := fun h => hvv (congrArg PTRef.vpn h)
    obtain ⟨i, hm⟩ := hR v hE (by
      simpa only [VM.setTLB, install, VM.modifyEntry, update_of_ne hne] using hv)
    have hix : i ≠ x := by
      rintro rfl
      rw [hm.1] at hx
      cases hx
    refine ⟨i, ?_⟩
    simpa only [VM.Maps, VM.setTLB, install, VM.modifyEntry, update_of_ne hix] using hm

/-- The page is in memory now and not in the TLB, so that an entry is free. -/
theorem resident_updateTLB (hsize : c.NumPhysPages ≤ c.TLBSize)
    (hF : Frames none (install ⟨sp, vpn⟩ f s)) (hE : s.HasEntry ⟨sp, vpn⟩)
    (hvp : (s.pageTable ⟨sp, vpn⟩).virtualPage = vpn) (hno : ∀ i, ¬ s.Maps i vpn)
    (hR : Resident sp s) (h : updateTLB sp vpn (install ⟨sp, vpn⟩ f s) = .ok s') :
    Resident sp s' := by
  have hv : ((install ⟨sp, vpn⟩ f s).pageTable ⟨sp, vpn⟩).valid = true := by
    simp
  obtain ⟨x, hx, hupd⟩ := updateTLB_free (s := install ⟨sp, vpn⟩ f s) hE
    (exists_free_entry hsize hF hE hv hno)
  rw [hupd] at h
  cases h
  exact resident_install hR hvp hx

theorem resident_load (hsize : c.NumPhysPages ≤ c.TLBSize) (hF : Frames none s)
    (hc : s.current = some sp) (hE : s.HasEntry ⟨sp, vpn⟩) (hno : ∀ i, ¬ s.Maps i vpn)
    (hR : Resident sp s) (hload : load sp vpn s = .ok s') : Resident sp s' := by
  have hv : (s.pageTable ⟨sp, vpn⟩).valid = false := by
    by_contra hv
    obtain ⟨i, hm⟩ := hR vpn hE (by simpa using hv)
    exact hno i hm
  rcases load_branches hE with ⟨hv', -⟩ | herr | ⟨-, n, zero, K, hbranch, hK⟩
  · rw [hv] at hv'
    cases hv'
  · rw [herr] at hload
    cases hload
  have hn : Frames none { s with numPageFaults := n } := { hF with }
  rw [hbranch] at hload
  rcases acquire_spec zero hn with ⟨f, s₁, hacq, ha⟩ | hacq | hacq
  all_goals rw [hacq] at hload
  · change K (f, s₁) = .ok s' at hload
    rcases hK f s₁ ha.static.2.2.2.1 (by rw [ha.entry hn hv]) with ⟨s₂, hfill, hk⟩ | ⟨e, hk, -⟩
    all_goals rw [hk] at hload
    · obtain ⟨hspaces, -, -, -, -, htable, htlb, -⟩ := hfill.static
      have hno₂ : ∀ i, ¬ s₂.Maps i vpn := by
        intro i hm
        rw [VM.Maps, htlb] at hm
        exact hno i (ha.maps i vpn hm)
      have hR₂ : Resident sp s₂ := by
        have hR₁ := ha.resident hn hc hR
        unfold Resident VM.HasEntry VM.Maps at hR₁ ⊢
        rwa [hspaces, htable, htlb]
      refine resident_updateTLB hsize (hfill.install_frames ha hF (soloVictim_none _ _) hE hv)
        ?_ ?_ hno₂ hR₂ hload
      · simpa only [VM.HasEntry, hspaces, ha.static.1] using hE
      · rw [htable, ha.entry hn hv]
        exact hF.vpage _ hE
    · cases hload
  · cases hload
  · cases hload

/-! ### Runs of one address space -/

/-- `Translate` raises an exception on a page that the TLB does not map, and only `load` returns
from it. -/
theorem translate_miss (hF : Frames none s) (hc : s.current = some sp)
    (hno : ∀ i, ¬ s.Maps i (pageOf addr)) (size : ℕ) (writing : Bool) :
    ∃ exception, translate addr size writing s = .ok (.error exception, s) ∧
      ∀ s', raiseException exception addr s = .ok s' →
        load sp (pageOf addr) { s with BadVAddrReg := addr } = .ok s' := by
  rcases translate_spec hF addr size writing with ⟨ht, -⟩ | ⟨ht, -⟩ | ⟨i, -, -, -, hm, -⟩
  · refine ⟨_, ht, fun s' hs' => ?_⟩
    simp [raiseException, exceptionHandler] at hs'
  · refine ⟨_, ht, fun s' hs' => ?_⟩
    simpa only [raiseException, exceptionHandler, hc] using hs'
  · exact absurd hm (hno i)

/-- A step that misses is a `load`. -/
theorem load_of_miss (hF : Frames none s) (hc : s.current = some sp) (ha : a.addr = some addr)
    (hno : ∀ i, ¬ s.Maps i (pageOf addr)) (h : Step s a s') :
    load sp (pageOf addr) { s with BadVAddrReg := addr } = .ok s' := by
  cases h.stepped with
  | access a addr' size w o s' hacc hr =>
    obtain rfl : addr' = addr := Option.some.inj (hacc.addr.symm.trans ha)
    obtain ⟨exception, ht, hload⟩ := translate_miss hF hc hno size w.isSome
    rw [accessMem_exception ht] at hr
    obtain ⟨s₁, hraise, hs₁⟩ := map_eq_ok.1 hr
    cases hs₁
    exact hload _ hraise
  | create => cases ha
  | switchOut => cases ha
  | switchIn => cases ha

/-- An access is one of the running space, and leaves the tables in order. -/
theorem access_of_step (hF : Frames none s) (hc : s.current = some sp) (ha : a.addr = some addr)
    (h : Step s a s') :
    s.HasEntry ⟨sp, pageOf addr⟩ ∧ Frames none s' ∧ ∃ size w, Accessed sp addr size w s s' := by
  rcases step_cases hF h with ⟨sp', addr', size, w, hc', hE, hacc, hF', hwhich⟩ |
    ⟨fn, ex, rfl, -⟩ | ⟨sp', fresh, s₁, rfl, -⟩ | ⟨sp', fresh, rfl, -⟩
  · rw [hc] at hc'
    cases hc'
    obtain rfl : addr' = addr := Option.some.inj (hwhich.addr.symm.trans ha)
    exact ⟨hE, hF', size, w, hacc⟩
  · cases ha
  · cases ha
  · cases ha

/-- A hit maps what it did. -/
theorem Accessed.maps_of_hit {size : ℕ} {w : Option (BitVec 32)} (h : Accessed sp addr size w s s')
    (hm : ∃ i, s.Maps i (pageOf addr)) :
    s'.pageTable = s.pageTable ∧ ∀ i v, s.Maps i v → s'.Maps i v := by
  cases h with
  | miss s' hno hl =>
    obtain ⟨i, hi⟩ := hm
    exact absurd hi (hno i)
  | hit i f _ hv hp hs =>
    refine ⟨rfl, fun j v hj => ?_⟩
    by_cases hji : j = i
    · subst hji
      simpa only [VM.Maps, VM.touch, VM.setTLB, update_self] using hj
    · simpa only [VM.Maps, VM.touch, VM.setTLB, update_of_ne hji] using hj

/-- What is known in every state of a run: the tables are in order, and the pages of the running
space that are in memory are in the TLB. -/
structure RefInv (sp : ℕ) (s : VM c) : Prop where
  frames : Frames none s
  current : s.current = some sp
  resident : Resident sp s

theorem RefStep.sameSpaces {t t' : RefState c} (hs : RefStep sp t a t') (h : RefInv sp t.vm) :
    SameSpaces t.vm t'.vm := by
  cases hs with
  | hit ha hm hstep | miss ha hno hstep =>
    obtain ⟨-, -, size, w, hacc⟩ := access_of_step h.frames h.current ha hstep
    exact hacc.sameSpaces

theorem refInv_step (hsize : c.NumPhysPages ≤ c.TLBSize) {t t' : RefState c} (h : RefInv sp t.vm)
    (hs : RefStep sp t a t') : RefInv sp t'.vm := by
  have hsame := hs.sameSpaces h
  cases hs with
  | hit ha hm hstep =>
    obtain ⟨-, hF, size, w, hacc⟩ := access_of_step h.frames h.current ha hstep
    obtain ⟨htable, hmaps⟩ := hacc.maps_of_hit hm
    refine ⟨hF, hsame.current.trans h.current, fun v hE hv => ?_⟩
    rw [htable] at hv
    obtain ⟨i, hi⟩ := h.resident v ((hsame.hasEntry _).1 hE) hv
    exact ⟨i, hmaps i v hi⟩
  | @miss addr _ ha hno hstep =>
    obtain ⟨hE, hF, -⟩ := access_of_step h.frames h.current ha hstep
    have hF₁ : Frames none { t.vm with BadVAddrReg := addr } := { h.frames with }
    refine ⟨hF, hsame.current.trans h.current, ?_⟩
    exact resident_load hsize hF₁ h.current hE hno h.resident
      (load_of_miss h.frames h.current ha hno hstep)

theorem refInv_of_reach (hsize : c.NumPhysPages ≤ c.TLBSize) {t : RefState c}
    (h : Reach (RefInit sp) (RefStep sp) t) : RefInv sp t.vm := by
  refine Reach.invariant (I := fun t => RefInv sp t.vm) ?_ ?_ h
  · rintro t ⟨hreach, hc, hnone, -⟩
    refine ⟨hreach.frames.1, hc, fun v hE hv => ?_⟩
    rw [hnone v hE] at hv
    cases hv
  · exact fun _ _ _ hi hs => refInv_step hsize hi hs

theorem smallStart_refInit : RefInit 0 ⟨smallStart, ∅⟩ :=
  ⟨smallStart_reachable, rfl, fun _ _ => rfl, rfl⟩

/-- Perform an access. -/
def RefState.exec (sp : ℕ) (s : RefState c) (a : Action c) : Option (RefState c) :=
  a.addr.bind fun addr => (a.exec s.vm).toOption.map fun vm =>
    if ∃ i, s.vm.Maps i (pageOf addr) then ⟨vm, insert (pageOf addr) s.referenced⟩
    else ⟨vm, s.afterLoad sp (pageOf addr)⟩

theorem RefState.exec_step {s s' : RefState c} (h : s.exec sp a = some s') : RefStep sp s a s' := by
  obtain ⟨addr, ha, h⟩ := Option.bind_eq_some_iff.1 h
  obtain ⟨vm, hex, rfl⟩ := Option.map_eq_some_iff.1 h
  have hstep : Step s.vm a vm := by
    refine ⟨?_, toOption_eq_some.1 hex⟩
    cases a <;> first | exact trivial | cases ha
  split_ifs with hm
  · exact .hit ha hm hstep
  · exact .miss ha (not_exists.1 hm) hstep

/-- Two frames and one TLB entry. -/
def twoFrames : Sizes := ⟨2, 1, 64, by decide, by decide⟩

/-- A TLB as a fresh heap has it. -/
def oneEntry : Fin twoFrames.TLBSize → TranslationEntry :=
  fun _ => ⟨0, 0, false, false, false, false⟩

/-- A machine with these sizes on which every name opens `smallNoff`. -/
def twoFramesBoot : VM twoFrames :=
  boot (fun _ => some smallNoff) (some (File.ofList [])) (fun _ => 0) (fun _ => 0) oneEntry

/-- One address space, which runs. -/
def twoFramesStart : VM twoFrames :=
  { restoreState oneEntry
      (twoFramesBoot.addSpace (.ofHeader smallNoff.noffHeader "sort") freshEntry) with
    current := some 0 }

theorem twoFramesStart_refInit : RefInit 0 ⟨twoFramesStart, ∅⟩ :=
  ⟨.step (.switchIn 0 oneEntry)
      (.step (.create "sort") (.init ⟨_, _, _, _, _, rfl⟩) (step_create rfl smallNoff_magic))
      ⟨⟨rfl, Nat.zero_lt_one⟩, rfl⟩, rfl, fun _ _ => rfl, rfl⟩

/-- The states after an access to page 0 that misses, one that hits, and one to page 1. -/
def threeReads : Option (VM twoFrames × VM twoFrames × VM twoFrames) := do
  let vm₁ ← ((Action.read 0 4).exec twoFramesStart).toOption
  let vm₂ ← ((Action.read 0 4).exec vm₁).toOption
  let vm₃ ← ((Action.read 128 4).exec vm₂).toOption
  return (vm₁, vm₂, vm₃)

/-- The only TLB entry is valid and maps page `v`. -/
def OnlyMaps (v : ℕ) (vm : VM twoFrames) : Prop :=
  ∀ i, (vm.tlb i).valid = true ∧ (vm.tlb i).virtualPage = v
  deriving Decidable

theorem OnlyMaps.not_maps {v w : ℕ} {vm : VM twoFrames} (h : OnlyMaps v vm) (hne : w ≠ v)
    (i : Fin twoFrames.TLBSize) : ¬ vm.Maps i w := fun hm =>
  hne (Int.ofNat.inj (hm.2.symm.trans (h i).2))

theorem threeReads_maps : ∃ p, threeReads = some p ∧ OnlyMaps 0 p.1 ∧ OnlyMaps 0 p.2.1 ∧
    OnlyMaps 1 p.2.2 ∧ p.2.1.MemBitMap.find.1 ≠ none ∧
    (p.2.2.pageTable ⟨0, 0⟩).valid = true ∧ (p.2.2.pageTable ⟨0, 0⟩).use = false := by
  have hany : threeReads.any (fun p => decide (OnlyMaps 0 p.1 ∧ OnlyMaps 0 p.2.1 ∧
      OnlyMaps 1 p.2.2 ∧ p.2.1.MemBitMap.find.1 ≠ none ∧
      (p.2.2.pageTable ⟨0, 0⟩).valid = true ∧ (p.2.2.pageTable ⟨0, 0⟩).use = false)) = true := by
    decide +kernel
  cases hrun : threeReads with
  | none => simp [hrun] at hany
  | some p =>
    rw [hrun] at hany
    exact ⟨p, rfl, of_decide_eq_true hany⟩

/-- With two frames and one TLB entry, a page that was referenced after it had been loaded is
replaced in the TLB, and has a clear use bit. -/
theorem reference_lost : ∃ (s s' : RefState twoFrames) (a : Action twoFrames),
    Reach (RefInit 0) (RefStep 0) s ∧ RefStep 0 s a s' ∧ Replaced 0 0 s.vm s'.vm ∧
      0 ∈ s'.referenced ∧ (s'.vm.pageTable ⟨0, 0⟩).use = false := by
  obtain ⟨⟨vm₁, vm₂, vm₃⟩, hrun, h₁, h₂, h₃, hfree, hv, hu⟩ := threeReads_maps
  unfold threeReads at hrun
  obtain ⟨_, hex₁, hrun⟩ := Option.bind_eq_some_iff.1 hrun
  obtain ⟨_, hex₂, hrun⟩ := Option.bind_eq_some_iff.1 hrun
  obtain ⟨_, hex₃, hrun⟩ := Option.bind_eq_some_iff.1 hrun
  cases hrun
  have hmiss : RefStep 0 ⟨twoFramesStart, ∅⟩ (.read 0 4) ⟨vm₁, _⟩ :=
    .miss rfl (fun i hm => by cases hm.1) ⟨trivial, toOption_eq_some.1 hex₁⟩
  have hhit : ∀ R, RefStep 0 ⟨vm₁, R⟩ (.read 0 4) ⟨vm₂, _⟩ := fun R =>
    .hit rfl ⟨⟨0, Nat.one_pos⟩, h₁ _⟩ ⟨trivial, toOption_eq_some.1 hex₂⟩
  have hsecond : ∀ R, RefStep 0 ⟨vm₂, R⟩ (.read 128 4) ⟨vm₃, _⟩ := fun R =>
    .miss rfl (h₂.not_maps (by decide)) ⟨trivial, toOption_eq_some.1 hex₃⟩
  refine ⟨_, _, _, ((Reach.init twoFramesStart_refInit).step _ hmiss).step _ (hhit _), hsecond _,
    ⟨⟨⟨0, Nat.one_pos⟩, h₂ _⟩, h₃.not_maps (by decide), hv⟩, ?_, hu⟩
  exact ⟨Or.inl rfl, fun h => absurd h.1 (by decide), fun h => hfree h.1.2⟩

end Nachos
