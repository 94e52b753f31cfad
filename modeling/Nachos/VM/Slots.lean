import Nachos.VM.Run

/-!
# Swap slots

The `physicalPage` of an invalid entry is `-1` or the number of a slot of the swap file.

* `Slots`: the slots of different pages are different, and all are marked.  This holds in every
  reachable state (`Reachable.slots`), whatever garbage `SaveState` puts into dirty bits.
* `Tight`: every marked slot belongs to a page, and the pages with a slot are those whose dirty
  bit is set.  This needs that no context switch interferes: it holds along the runs of a single
  space (`swap_slot_accounting`).
-/

namespace Nachos

open Transition

variable {c : Sizes}

/-- An invalid page has no slot, or a marked slot of its own. -/
structure Slots (s : VM c) : Prop where
  slot : ∀ r, s.HasEntry r → (s.pageTable r).valid = false →
    (s.pageTable r).physicalPage = -1 ∨
      ∃ k : Fin c.SWAPSize, (s.pageTable r).physicalPage = (k : ℕ) ∧ s.SWAPBitMap.isSet k = true
  inj : ∀ r r', s.HasEntry r → s.HasEntry r' → (s.pageTable r).valid = false →
    (s.pageTable r').valid = false → (s.pageTable r).physicalPage ≠ -1 →
    (s.pageTable r).physicalPage = (s.pageTable r').physicalPage → r = r'

/-- Every marked slot is in use, and the invalid pages with a slot are the dirty ones. -/
structure Tight (s : VM c) : Prop where
  used : ∀ k : Fin c.SWAPSize, s.SWAPBitMap.isSet k = true →
    ∃ r, s.HasEntry r ∧ (s.pageTable r).valid = false ∧ (s.pageTable r).physicalPage = (k : ℕ)
  dirty : ∀ r, s.HasEntry r → (s.pageTable r).valid = false →
    ((s.pageTable r).dirty = true ↔ (s.pageTable r).physicalPage ≠ -1)

theorem Slots.bitsOnly {s s' : VM c} (h : Slots s) (hb : BitsOnly s s') : Slots s' where
  slot r hE hv := by
    rw [hb.physicalPage, hb.SWAPBitMap]
    exact h.slot r ((hb.hasEntry r).1 hE) (by rw [← hb.valid]; exact hv)
  inj r r' hE hE' hv hv' hp heq := by
    rw [hb.physicalPage] at hp heq
    rw [hb.physicalPage] at heq
    exact h.inj r r' ((hb.hasEntry r).1 hE) ((hb.hasEntry r').1 hE') (by rw [← hb.valid]; exact hv)
      (by rw [← hb.valid]; exact hv') hp heq

/-- The dirty bits that a clock copies are those of valid pages. -/
theorem Tight.refresh {s s' : VM c} (h : Tight s) (hF : Frames none s) (hr : Refresh s s') :
    Tight s' where
  used k hk := by
    rw [hr.SWAPBitMap] at hk
    obtain ⟨r, hE, hv, hp⟩ := h.used k hk
    exact ⟨r, (hr.hasEntry r).2 hE, by rw [hr.valid, hv], by rw [hr.physicalPage, hp]⟩
  dirty r hE hv := by
    rw [hr.valid] at hv
    have hd : (s'.pageTable r).dirty = (s.pageTable r).dirty := by
      rcases hr.dirty r with hd | ⟨i, hc, hm, -⟩
      · exact hd
      · have := (hF.mirror hc hm).2.1
        simp [hv] at this
    rw [hd, hr.physicalPage]
    exact h.dirty r ((hr.hasEntry r).1 hE) hv

/-- Writing a TLB entry touches neither. -/
theorem Slots.setTLB {s : VM c} (h : Slots s) (i : Fin c.TLBSize) (e : TranslationEntry) :
    Slots (s.setTLB i e) := { h with }

theorem Tight.setTLB {s : VM c} (h : Tight s) (i : Fin c.TLBSize) (e : TranslationEntry) :
    Tight (s.setTLB i e) := { h with }

/-! ### Getting a frame -/

section Evict

variable {zero : Bool} {s s' : VM c} {x : Fin c.NumPhysPages} {rv : PTRef}

theorem Evicted.slots (h : Evicted zero s x rv s') (hs : Slots s) (hsp : s'.spaces = s.spaces) :
    Slots s' := by
  have hE : ∀ r, s'.HasEntry r → s.HasEntry r := fun r hr => by
    simpa only [VM.HasEntry, hsp] using hr
  have hold : ∀ r, r ≠ rv → (s'.pageTable r).valid = (s.pageTable r).valid ∧
      (s'.pageTable r).physicalPage = (s.pageTable r).physicalPage := fun r hr => by
    rw [h.entry hr]
    exact ⟨rfl, rfl⟩
  obtain ⟨-, ⟨-, hpp, hmap, -⟩ | ⟨k, file, -, hpp, hclear, hmap, -⟩⟩ := h.victim
  · constructor
    · intro r hr hv
      by_cases hrv : r = rv
      · exact Or.inl (hrv ▸ hpp)
      · rw [(hold r hrv).1] at hv
        rw [(hold r hrv).2, hmap]
        exact hs.slot r (hE r hr) hv
    · intro r r' hr hr' hv hv' hp heq
      have hrv : r ≠ rv := fun he => hp (he ▸ hpp)
      have hrv' : r' ≠ rv := fun he => hp (heq.trans (he ▸ hpp))
      rw [(hold r hrv).1] at hv
      rw [(hold r' hrv').1] at hv'
      rw [(hold r hrv).2] at hp heq
      rw [(hold r' hrv').2] at heq
      exact hs.inj r r' (hE r hr) (hE r' hr') hv hv' hp heq
  · -- the new slot was not marked, so that no other page has it
    have hfree : ∀ r, r ≠ rv → s'.HasEntry r → (s'.pageTable r).valid = false →
        (s'.pageTable r).physicalPage ≠ (k : ℕ) := by
      intro r hrv hr hv hp
      rw [(hold r hrv).1] at hv
      rw [(hold r hrv).2] at hp
      rcases hs.slot r (hE r hr) hv with h1 | ⟨j, hj, hset⟩
      · omega
      · have : j = k := Fin.ext (by omega)
        simp [← this, hset] at hclear
    constructor
    · intro r hr hv
      by_cases hrv : r = rv
      · exact Or.inr ⟨k, hrv ▸ hpp, by simp [hmap]⟩
      · rw [(hold r hrv).1] at hv
        rw [(hold r hrv).2, hmap]
        refine (hs.slot r (hE r hr) hv).imp id ?_
        rintro ⟨j, hj, hset⟩
        exact ⟨j, hj, by simp [hset]⟩
    · intro r r' hr hr' hv hv' hp heq
      by_cases hrv : r = rv <;> by_cases hrv' : r' = rv
      · rw [hrv, hrv']
      · exact absurd (heq.symm.trans (hrv ▸ hpp)) (hfree r' hrv' hr' hv')
      · exact absurd (heq.trans (hrv' ▸ hpp)) (hfree r hrv hr hv)
      · rw [(hold r hrv).1] at hv
        rw [(hold r' hrv').1] at hv'
        rw [(hold r hrv).2] at hp heq
        rw [(hold r' hrv').2] at heq
        exact hs.inj r r' (hE r hr) (hE r' hr') hv hv' hp heq

theorem Evicted.tight (h : Evicted zero s x rv s') (hF : Frames none s) (ht : Tight s)
    (hsp : s'.spaces = s.spaces) : Tight s' := by
  have hE : ∀ r, s'.HasEntry r ↔ s.HasEntry r := fun r => by simp only [VM.HasEntry, hsp]
  have hrv := hF.ipt x rv (by simp) h.ipt
  have hold : ∀ r, r ≠ rv → (s'.pageTable r).valid = (s.pageTable r).valid ∧
      (s'.pageTable r).physicalPage = (s.pageTable r).physicalPage ∧
      (s'.pageTable r).dirty = (s.pageTable r).dirty := fun r hr => by
    rw [h.entry hr]
    exact ⟨rfl, rfl, rfl⟩
  -- a page that had a slot is not the victim, which was valid
  have hkeep : ∀ j : Fin c.SWAPSize, s.SWAPBitMap.isSet j = true → ∃ r, s'.HasEntry r ∧
      (s'.pageTable r).valid = false ∧ (s'.pageTable r).physicalPage = (j : ℕ) := by
    intro j hj
    obtain ⟨r, hr, hv, hp⟩ := ht.used j hj
    have hne : r ≠ rv := by
      rintro rfl
      simp [hv] at hrv
    exact ⟨r, (hE r).2 hr, by rw [(hold r hne).1, hv], by rw [(hold r hne).2.1, hp]⟩
  have hdirty : ∀ r, r ≠ rv → s'.HasEntry r → (s'.pageTable r).valid = false →
      ((s'.pageTable r).dirty = true ↔ (s'.pageTable r).physicalPage ≠ -1) := by
    intro r hne hr hv
    rw [(hold r hne).1] at hv
    rw [(hold r hne).2.1, (hold r hne).2.2]
    exact ht.dirty r ((hE r).1 hr) hv
  obtain ⟨hv, ⟨hd, hpp, hmap, -⟩ | ⟨k, file, hd, hpp, -, hmap, -⟩⟩ := h.victim
  · constructor
    · intro j hj
      exact hkeep j (hmap ▸ hj)
    · intro r hr hrv'
      by_cases hne : r = rv
      · subst hne
        simp [hd, hpp]
      · exact hdirty r hne hr hrv'
  · constructor
    · intro j hj
      rw [hmap, BitMap.isSet_setBit] at hj
      by_cases hjk : (k : ℕ) = j
      · exact ⟨rv, (hE rv).2 hrv.1, hv, by rw [hpp, hjk]⟩
      · exact hkeep j (by simpa [hjk] using hj)
    · intro r hr hrv'
      by_cases hne : r = rv
      · subst hne
        simp only [hd, hpp, true_iff]
        omega
      · exact hdirty r hne hr hrv'

end Evict

theorem Acquired.slots {zero : Bool} {s s' : VM c} {f : Fin c.NumPhysPages}
    (h : Acquired zero s f s') (hs : Slots s) : Slots s' := by
  have hsp := h.static.1
  cases h with
  | free f m hfind => exact { hs with }
  | evicted rv s' hfull hev => exact hev.slots hs hsp

theorem Acquired.tight {zero : Bool} {s s' : VM c} {f : Fin c.NumPhysPages}
    (h : Acquired zero s f s') (hF : Frames none s) (ht : Tight s) : Tight s' := by
  have hsp := h.static.1
  cases h with
  | free f m hfind => exact { ht with }
  | evicted rv s' hfull hev => exact hev.tight hF ht hsp

/-! ### Filling a frame -/

section Fill

variable {vpn sp : ℕ} {f : Fin c.NumPhysPages} {zero : Bool} {s s' : VM c} {e : TranslationEntry}
  {space : AddrSpace}

/-- The page that is loaded gives its slot up as it becomes valid. -/
theorem Filled.slots (h : Filled vpn space e f s zero s') (hs : Slots s)
    (hE : s.HasEntry ⟨sp, vpn⟩) (hv : (s.pageTable ⟨sp, vpn⟩).valid = false)
    (he : (s.pageTable ⟨sp, vpn⟩).physicalPage = e.physicalPage) :
    Slots (install ⟨sp, vpn⟩ f s') := by
  have hst := h.static
  have hE' : ∀ r, (install ⟨sp, vpn⟩ f s').HasEntry r ↔ s.HasEntry r := fun r => by
    simp only [VM.HasEntry, install, VM.modifyEntry, hst.1]
  have hother : ∀ r, ((install ⟨sp, vpn⟩ f s').pageTable r).valid = false →
      r ≠ ⟨sp, vpn⟩ ∧ (install ⟨sp, vpn⟩ f s').pageTable r = s.pageTable r := by
    intro r hr
    have hne : r ≠ ⟨sp, vpn⟩ := by
      rintro rfl
      simp at hr
    exact ⟨hne, by simp [Function.update_of_ne hne, hst.2.2.2.2.2.1]⟩
  -- no other page loses its mark
  have hmark : ∀ r, r ≠ ⟨sp, vpn⟩ → s.HasEntry r → (s.pageTable r).valid = false →
      ∀ k : Fin c.SWAPSize, (s.pageTable r).physicalPage = (k : ℕ) →
      s.SWAPBitMap.isSet k = true → s'.SWAPBitMap.isSet k = true := by
    intro r hne hr hrv k hk hset
    cases h with
    | file executable hd hf hvp => exact hset
    | blank hd hvp => exact hset
    | swap j file hd hj hf =>
      have hjk : (j : ℕ) ≠ k := by
        intro hjk
        refine hne (hs.inj r _ hr hE hrv hv (by omega) ?_)
        rw [he, hj, hk, hjk]
      simp [hjk, hset]
  constructor
  · intro r hr hrv
    obtain ⟨hne, heq⟩ := hother r hrv
    rw [heq] at hrv ⊢
    refine (hs.slot r ((hE' r).1 hr) hrv).imp id ?_
    rintro ⟨k, hk, hset⟩
    exact ⟨k, hk, hmark r hne ((hE' r).1 hr) hrv k hk hset⟩
  · intro r r' hr hr' hrv hrv' hp heq
    obtain ⟨-, h1⟩ := hother r hrv
    obtain ⟨-, h2⟩ := hother r' hrv'
    rw [h1] at hrv hp heq
    rw [h2] at hrv' heq
    exact hs.inj r r' ((hE' r).1 hr) ((hE' r').1 hr') hrv hrv' hp heq

theorem Filled.tight (h : Filled vpn space e f s zero s') (ht : Tight s)
    (hE : s.HasEntry ⟨sp, vpn⟩) (hv : (s.pageTable ⟨sp, vpn⟩).valid = false)
    (he : (s.pageTable ⟨sp, vpn⟩).physicalPage = e.physicalPage)
    (hde : (s.pageTable ⟨sp, vpn⟩).dirty = e.dirty) : Tight (install ⟨sp, vpn⟩ f s') := by
  have hst := h.static
  have hE' : ∀ r, (install ⟨sp, vpn⟩ f s').HasEntry r ↔ s.HasEntry r := fun r => by
    simp only [VM.HasEntry, install, VM.modifyEntry, hst.1]
  have hother : ∀ r, r ≠ ⟨sp, vpn⟩ → (install ⟨sp, vpn⟩ f s').pageTable r = s.pageTable r := by
    intro r hne
    simp [Function.update_of_ne hne, hst.2.2.2.2.2.1]
  -- a slot that is still marked belonged to another page
  have hkeep : ∀ k : Fin c.SWAPSize, s'.SWAPBitMap.isSet k = true →
      s.SWAPBitMap.isSet k = true ∧ (s.pageTable ⟨sp, vpn⟩).physicalPage ≠ (k : ℕ) := by
    intro k hk
    have hclean : e.dirty = false → (s.pageTable ⟨sp, vpn⟩).physicalPage = -1 := by
      intro hd
      by_contra hne
      have := (ht.dirty _ hE hv).2 hne
      rw [hde, hd] at this
      cases this
    cases h with
    | file executable hd hf hvp | blank hd hvp => exact ⟨hk, by have := hclean hd; omega⟩
    | swap j file hd hj hf =>
      simp only [BitMap.isSet_clearBit, Bool.and_eq_true, Bool.not_eq_true',
        decide_eq_false_iff_not] at hk
      exact ⟨hk.2, by rw [he, hj]; omega⟩
  constructor
  · intro k hk
    obtain ⟨hset, hne⟩ := hkeep k hk
    obtain ⟨r, hr, hrv, hp⟩ := ht.used k hset
    have hrr : r ≠ ⟨sp, vpn⟩ := by
      rintro rfl
      exact hne hp
    exact ⟨r, (hE' r).2 hr, by rw [hother r hrr, hrv], by rw [hother r hrr, hp]⟩
  · intro r hr hrv
    have hrr : r ≠ ⟨sp, vpn⟩ := by
      rintro rfl
      simp at hrv
    rw [hother r hrr] at hrv ⊢
    exact ht.dirty r ((hE' r).1 hr) hrv

end Fill

/-! ### A whole step -/

theorem Entered.slots {sp vpn : ℕ} {s s' : VM c} (h : Entered sp vpn s s') (hs : Slots s) :
    Slots s' := by
  cases h with
  | mk x s₁ hr hd => exact (hs.bitsOnly hr.toBitsOnly).setTLB x _

theorem Entered.tight {sp vpn : ℕ} {s s' : VM c} (h : Entered sp vpn s s') (hF : Frames none s)
    (ht : Tight s) : Tight s' := by
  cases h with
  | mk x s₁ hr hd => exact (ht.refresh hF hr).setTLB x _

theorem Loaded.slots {sp vpn : ℕ} {s s' : VM c} (h : Loaded sp vpn s s') (hF : Frames none s)
    (hE : s.HasEntry ⟨sp, vpn⟩) (hs : Slots s) : Slots s' := by
  cases h with
  | resident s' hv he => exact he.slots hs
  | fetched n zero f s₁ s₂ s' hv ha hf he =>
    have hn : Frames none { s with numPageFaults := n } := { hF with }
    have heq := ha.entry hn hv
    refine he.slots (hf.slots (ha.slots { hs with }) ?_ ?_ ?_)
    · simpa only [VM.HasEntry, ha.static.1] using hE
    · rw [heq]; exact hv
    · rw [heq]

theorem Loaded.tight {sp vpn : ℕ} {s s' : VM c} (h : Loaded sp vpn s s') (hF : Frames none s)
    (hE : s.HasEntry ⟨sp, vpn⟩) (ht : Tight s) : Tight s' := by
  cases h with
  | resident s' hv he => exact he.tight hF ht
  | fetched n zero f s₁ s₂ s' hv ha hf he =>
    have hn : Frames none { s with numPageFaults := n } := { hF with }
    have heq := ha.entry hn hv
    refine he.tight (hf.install_frames ha hF (soloVictim_none _ _) hE hv)
      (hf.tight (ha.tight hn { ht with }) ?_ ?_ ?_ ?_)
    · simpa only [VM.HasEntry, ha.static.1] using hE
    · rw [heq]; exact hv
    · rw [heq]
    · rw [heq]

section Access

variable {sp : ℕ} {addr : BitVec 32} {size : ℕ} {w : Option (BitVec 32)} {s s' : VM c}

theorem Accessed.slots (h : Accessed sp addr size w s s') (hF : Frames none s)
    (hE : s.HasEntry ⟨sp, pageOf addr⟩) (hs : Slots s) : Slots s' := by
  cases h with
  | miss s' hno hl => exact hl.slots { hF with } hE { hs with }
  | hit i f hm hv hp hsz => exact { hs with }

theorem Accessed.tight (h : Accessed sp addr size w s s') (hF : Frames none s)
    (hE : s.HasEntry ⟨sp, pageOf addr⟩) (ht : Tight s) : Tight s' := by
  cases h with
  | miss s' hno hl => exact hl.tight { hF with } hE { ht with }
  | hit i f hm hv hp hsz => exact { ht with }

end Access

theorem slots_boot (files : String → Option File) (swapFile : Option File)
    (words words' : ℕ → BitVec 32) (fresh : Fin c.TLBSize → TranslationEntry) :
    Slots (boot files swapFile words words' fresh) where
  slot _ _ _ := Or.inl rfl
  inj _ _ _ _ _ _ hp _ := absurd rfl hp

theorem tight_boot (files : String → Option File) (swapFile : Option File)
    (words words' : ℕ → BitVec 32) (fresh : Fin c.TLBSize → TranslationEntry) :
    Tight (boot files swapFile words words' fresh) where
  used k hk := by simp [boot, BitMap.isSet_new words' k.isLt] at hk
  dirty _ _ _ := by simp [boot, freshEntry]

section AddSpace

variable {s : VM c} (space : AddrSpace)

theorem Slots.addSpace (hs : Slots s) : Slots (s.addSpace space freshEntry) := by
  have hnew : ∀ r, (s.addSpace space freshEntry).HasEntry r →
      ((s.addSpace space freshEntry).pageTable r).physicalPage ≠ -1 →
      s.HasEntry r ∧ (s.addSpace space freshEntry).pageTable r = s.pageTable r := by
    intro r hE hp
    rcases addSpace_entry space freshEntry r hE with ⟨-, -, heq⟩ | ⟨-, hE', heq⟩
    · exact absurd (by rw [heq, freshEntry]) hp
    · exact ⟨hE', heq⟩
  constructor
  · intro r hE hv
    by_cases hp : ((s.addSpace space freshEntry).pageTable r).physicalPage = -1
    · exact Or.inl hp
    · obtain ⟨hE', heq⟩ := hnew r hE hp
      rw [heq] at hv ⊢
      exact hs.slot r hE' hv
  · intro r r' hE hE' hv hv' hp heq
    obtain ⟨h1, h2⟩ := hnew r hE hp
    obtain ⟨h1', h2'⟩ := hnew r' hE' (heq ▸ hp)
    rw [h2] at hv hp heq
    rw [h2'] at hv' heq
    exact hs.inj r r' h1 h1' hv hv' hp heq

theorem Tight.addSpace (ht : Tight s) (hu : Unmade s) : Tight (s.addSpace space freshEntry) := by
  constructor
  · intro k hk
    obtain ⟨r, hE, hv, hp⟩ := ht.used k hk
    obtain ⟨hE', heq⟩ := hu.addSpace_old space freshEntry hE
    exact ⟨r, hE', by rw [heq, hv], by rw [heq, hp]⟩
  · intro r hE hv
    rcases addSpace_entry space freshEntry r hE with ⟨-, -, heq⟩ | ⟨-, hE', heq⟩
    · rw [heq]
      simp [freshEntry]
    · rw [heq] at hv ⊢
      exact ht.dirty r hE' hv

end AddSpace

/-- The slots of different pages are different in every reachable state. -/
theorem Reachable.slots {s : VM c} (h : Reachable s) : Slots s := by
  refine Reach.invariant_of (J := fun s => Frames none s)
    (fun s hs => (show Reachable s from hs).frames.1) ?_ ?_ h
  · rintro s ⟨files, swapFile, words, words', fresh, rfl⟩
    exact slots_boot ..
  · rintro s a t hF hs hst
    rcases step_cases hF hst with ⟨sp, addr, size, w, -, hE, ha, -, -⟩ | ⟨fn, ex, -, -, -, rfl⟩ |
      ⟨sp, fresh, s₁, -, -, hb, -, rfl⟩ | ⟨sp, fresh, -, -, rfl⟩
    · exact ha.slots hF hE hs
    · exact hs.addSpace _
    · exact { hs.bitsOnly hb with }
    · exact { hs with }

/-! ### A single space -/

/-- One address space was made and started. -/
def Started (s : VM c) : Prop :=
  ∃ s₀ executable fn s₁ fresh, Booted s₀ ∧ newAddrSpace executable fn s₀ = .ok s₁ ∧
    s = { restoreState fresh s₁ with current := some 0 }

/-- One memory access of the only space. -/
def SoloStep (s : VM c) (a : Action c) (s' : VM c) : Prop :=
  (match a with
    | .read _ _ => True
    | .write _ _ _ => True
    | _ => False) ∧ a.exec s = .ok s'

/-- The states of the runs of a single space without context switch. -/
def SoloReachable (s : VM c) : Prop := Reach Started SoloStep s

theorem soloStep_cases {s s' : VM c} {a : Action c} (hF : Frames none s) (h : SoloStep s a s') :
    ∃ sp addr size w, s.current = some sp ∧ s.HasEntry ⟨sp, pageOf addr⟩ ∧
      Accessed sp addr size w s s' ∧ Frames none s' := by
  obtain ⟨ha, hex⟩ := h
  have hen : a.enabled s := by
    cases a <;> first | exact trivial | exact ha.elim
  rcases step_cases hF ⟨hen, hex⟩ with ⟨sp, addr, size, w, hc, hE, hacc, hF', -⟩ |
    ⟨_, _, rfl, _⟩ | ⟨_, _, _, rfl, _⟩ | ⟨_, _, rfl, _⟩
  · exact ⟨sp, addr, size, w, hc, hE, hacc, hF'⟩
  · exact ha.elim
  · exact ha.elim
  · exact ha.elim

/-- Ownership, separate slots, and no slot without its page. -/
structure Accounted (s : VM c) : Prop where
  frames : Frames none s
  slots : Slots s
  tight : Tight s

theorem Started.accounted {s : VM c} (h : Started s) : Accounted s := by
  obtain
    ⟨s₀, executable, fn, s₁, fresh, ⟨files, swapFile, words, words', fresh', rfl⟩, hnew, rfl⟩ := h
  simp only [newAddrSpace] at hnew
  split_ifs at hnew
  cases hnew
  have hu : Unmade (boot files swapFile words words' fresh' : VM c) := fun _ _ => rfl
  exact
    { frames := ((frames_boot ..).addSpace hu _).flush fresh _ _
      slots := { (slots_boot ..).addSpace _ with }
      tight := { (tight_boot ..).addSpace _ hu with } }

theorem Accounted.step {s s' : VM c} {a : Action c} (h : Accounted s) (hst : SoloStep s a s') :
    Accounted s' := by
  obtain ⟨sp, addr, size, w, -, hE, ha, hF⟩ := soloStep_cases h.frames hst
  exact ⟨hF, ha.slots h.frames hE h.slots, ha.tight h.frames hE h.tight⟩

theorem SoloReachable.accounted {s : VM c} (h : SoloReachable s) : Accounted s :=
  Reach.invariant (I := Accounted) (fun _ hs => hs.accounted)
    (fun _ _ _ hs hst => hs.step hst) h

/-- **Swap slot accounting.**  Along every run of a single space, the marked slots are exactly the
`physicalPage` values of the pages that are dirty and not valid; these are in range and pairwise
distinct; pages that are neither valid nor dirty have `-1`; and the slot that `load` hands to
`readFromSwap`, after it has got a frame, is marked. -/
theorem swap_slot_accounting {s : VM c} (h : SoloReachable s) :
    (∀ k < c.SWAPSize, s.SWAPBitMap.isSet k = true ↔
      ∃ r, s.HasEntry r ∧ (s.pageTable r).valid = false ∧ (s.pageTable r).dirty = true ∧
        (s.pageTable r).physicalPage = k) ∧
    (∀ r, s.HasEntry r → (s.pageTable r).valid = false → (s.pageTable r).dirty = true →
      0 ≤ (s.pageTable r).physicalPage ∧ (s.pageTable r).physicalPage < c.SWAPSize) ∧
    (∀ r r', s.HasEntry r → s.HasEntry r' → (s.pageTable r).valid = false →
      (s.pageTable r').valid = false → (s.pageTable r).dirty = true →
      (s.pageTable r').dirty = true →
      (s.pageTable r).physicalPage = (s.pageTable r').physicalPage → r = r') ∧
    (∀ r, s.HasEntry r → (s.pageTable r).valid = false → (s.pageTable r).dirty = false →
      (s.pageTable r).physicalPage = -1) ∧
    (∀ r, s.HasEntry r → (s.pageTable r).valid = false → (s.pageTable r).dirty = true →
      ∀ f s₁, acquire false s = .ok (f, s₁) → ∃ k : Fin c.SWAPSize,
        (s₁.pageTable r).physicalPage = (k : ℕ) ∧ s₁.SWAPBitMap.isSet k = true) := by
  obtain ⟨hF, hs, ht⟩ := h.accounted
  have hslot : ∀ r, s.HasEntry r → (s.pageTable r).valid = false →
      (s.pageTable r).dirty = true → ∃ k : Fin c.SWAPSize,
        (s.pageTable r).physicalPage = (k : ℕ) ∧ s.SWAPBitMap.isSet k = true := by
    intro r hE hv hd
    exact (hs.slot r hE hv).resolve_left ((ht.dirty r hE hv).1 hd)
  refine ⟨?_, ?_, ?_, ?_, ?_⟩
  · intro k hk
    constructor
    · intro hset
      obtain ⟨r, hE, hv, hp⟩ := ht.used ⟨k, hk⟩ hset
      have hp' : (s.pageTable r).physicalPage = k := hp
      exact ⟨r, hE, hv, (ht.dirty r hE hv).2 (by omega), hp'⟩
    · rintro ⟨r, hE, hv, hd, hp⟩
      obtain ⟨j, hj, hset⟩ := hslot r hE hv hd
      have hjk : (j : ℕ) = k := by omega
      rwa [← hjk]
  · intro r hE hv hd
    obtain ⟨k, hk, -⟩ := hslot r hE hv hd
    have := k.isLt
    omega
  · intro r r' hE hE' hv hv' hd _ heq
    exact hs.inj r r' hE hE' hv hv' ((ht.dirty r hE hv).1 hd) heq
  · intro r hE hv hd
    by_contra hne
    simp [(ht.dirty r hE hv).2 hne] at hd
  · intro r hE hv hd f s₁ hacq
    rcases acquire_spec false hF with ⟨f', s', heq, ha⟩ | heq | heq
    · rw [heq] at hacq
      cases hacq
      have hE₁ : s₁.HasEntry r := by simpa only [VM.HasEntry, ha.static.1] using hE
      have hsame := ha.entry hF hv
      have hv₁ : (s₁.pageTable r).valid = false := by rw [hsame]; exact hv
      have hd₁ : (s₁.pageTable r).dirty = true := by rw [hsame]; exact hd
      exact ((ha.slots hs).slot r hE₁ hv₁).resolve_left (((ha.tight hF ht).dirty r hE₁ hv₁).1 hd₁)
    · rw [heq] at hacq
      cases hacq
    · rw [heq] at hacq
      cases hacq

theorem smallStart_started : Started smallStart := by
  have hm : smallNoff.noffHeader.noffMagic = NOFFMAGIC := by decide +kernel
  refine ⟨smallBoot, smallNoff, "sort", _, zeroTLB, ⟨_, _, _, _, _, rfl⟩, ?_, rfl⟩
  simp [newAddrSpace, hm]

/-- Perform a write of the only space. -/
def Action.soloWrite (s : VM c) : Action c → Option (VM c)
  | .write addr size value => ((Action.write addr size value).exec s).toOption
  | _ => none

theorem Action.soloWrite_step {s s' : VM c} {a : Action c} (h : a.soloWrite s = some s') :
    SoloStep s a s' := by
  cases a with
  | write addr size value => exact ⟨trivial, Fallible.toOption_eq_some.1 h⟩
  | _ => cases h

/-- Six pages are written, each with a miss and a hit: the first of them goes to slot 0. -/
theorem swap_slot_accounting_sixPages :
    ∃ s : VM machineH, SoloReachable s ∧ s.SWAPBitMap.isSet 0 = true ∧
      ∃ r, s.HasEntry r ∧ (s.pageTable r).valid = false ∧ (s.pageTable r).dirty = true ∧
        (s.pageTable r).physicalPage = (0 : ℕ) := by
  obtain ⟨s, hr, hset⟩ : ∃ s : VM machineH, SoloReachable s ∧ s.SWAPBitMap.isSet 0 = true :=
    Reach.exists_run (fun _ _ _ => Action.soloWrite_step) (.init smallStart_started)
      [.write 0 4 1, .write 0 4 1, .write 128 4 1, .write 128 4 1, .write 256 4 1, .write 256 4 1,
        .write 384 4 1, .write 384 4 1, .write 512 4 1, .write 512 4 1, .write 640 4 1,
        .write 640 4 1] (by decide +kernel)
  exact ⟨s, hr, hset, ((swap_slot_accounting hr).1 0 (by decide)).1 hset⟩

end Nachos
