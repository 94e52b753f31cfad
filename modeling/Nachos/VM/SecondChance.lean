import Nachos.VM.Spaces

/-!
# What `getNextSCTLB` and `getNextSCSWAP` do, exactly

`Refresh` says what the loops may change; here is what they do change.  A loop passes over the
entries with a use bit and takes the first without, so that its turns are those of `Clock`.

* `PassedTLB sp s k s'`: the state after `k` entries have been passed over.
* `SweptTLB sp s k s'`: the state when the entry after these has been taken.
* `second_chance_TLB`: the two cases of `getNextSCTLB`.
* `PassedIPT s k hand s'`: the state after `k` frames have been passed over; the hand is at `hand`.
* `second_chance_SWAP`: the frame that `getNextSCSWAP` takes.
-/

namespace Nachos

open Clock Function

variable {c : Sizes} {sp : ℕ} {s s' : VM c}

/-- The entry `k` places after the hand. -/
abbrev tlbAhead (s : VM c) (k : ℕ) : Fin c.TLBSize := ahead s.indexTLBSndChc k

/-- The valid entries have pages of the space. -/
def TLBRange (sp : ℕ) (s : VM c) : Prop :=
  ∀ i, (s.tlb i).valid = true →
    0 ≤ (s.tlb i).virtualPage ∧ (s.tlb i).virtualPage < (s.spaces sp).numPages

/-- The valid entries have pages of their own. -/
def TLBDistinct (s : VM c) : Prop :=
  ∀ i j, (s.tlb i).valid = true → (s.tlb j).valid = true →
    (s.tlb i).virtualPage = (s.tlb j).virtualPage → i = j

/-! ### The turns over entries that have been used -/

/-- The hand has passed over `k` entries: they have lost their use bits to the page table, and it
has their dirty bits. -/
structure PassedTLB (sp : ℕ) (s : VM c) (k : ℕ) (s' : VM c) : Prop where
  hand : s'.indexTLBSndChc = tlbAhead s k
  tlb : ∀ i, s'.tlb i =
    { s.tlb i with use := passed (fun i => (s.tlb i).use) s.indexTLBSndChc k i }
  examined : ∀ j < k, s'.pageTable (tlbRef sp s (tlbAhead s j)) =
    { s.pageTable (tlbRef sp s (tlbAhead s j)) with
      use := true, dirty := (s.tlb (tlbAhead s j)).dirty }
  other : ∀ r, (∀ j < k, r ≠ tlbRef sp s (tlbAhead s j)) → s'.pageTable r = s.pageTable r
  rest : s' = { s with
    tlb := s'.tlb, pageTable := s'.pageTable, indexTLBSndChc := s'.indexTLBSndChc }

theorem PassedTLB.zero (sp : ℕ) (s : VM c) : PassedTLB sp s 0 s where
  hand := (ahead_zero _).symm
  tlb i := by rw [passed_zero]
  examined j hj := absurd hj (Nat.not_lt_zero j)
  other _ _ := rfl
  rest := rfl

variable {k : ℕ} {r : PTRef}

/-- The bits aside, the page table is as it was. -/
theorem PassedTLB.entry (h : PassedTLB sp s k s') (r : PTRef) :
    s'.pageTable r =
      { s.pageTable r with use := (s'.pageTable r).use, dirty := (s'.pageTable r).dirty } := by
  by_cases hr : ∃ j < k, r = tlbRef sp s (tlbAhead s j)
  · obtain ⟨j, hj, rfl⟩ := hr
    rw [h.examined j hj]
  · rw [h.other r fun j hj hrj => hr ⟨j, hj, hrj⟩]

theorem PassedTLB.tlbRef_eq (h : PassedTLB sp s k s') (i : Fin c.TLBSize) :
    tlbRef sp s' i = tlbRef sp s i := by
  unfold tlbRef
  rw [h.tlb i]

theorem PassedTLB.turn_other (h : PassedTLB sp s k s') (oldUse : Bool)
    (hr : ∀ j ≤ k, r ≠ tlbRef sp s (tlbAhead s j)) :
    (turnTLB sp s'.indexTLBSndChc false oldUse s').pageTable r = s.pageTable r := by
  rw [turnTLB_pageTable, h.tlbRef_eq, h.hand, if_neg (hr k le_rfl)]
  exact h.other r fun j hj => hr j hj.le

theorem PassedTLB.turn_tlb (h : PassedTLB sp s k s') (oldUse : Bool) (i : Fin c.TLBSize) :
    (turnTLB sp s'.indexTLBSndChc false oldUse s').tlb i =
      { s.tlb i with use := passed (fun i => (s.tlb i).use) s.indexTLBSndChc (k + 1) i } := by
  rw [turnTLB_tlb, h.tlb, h.hand, passed_succ]

section Full

variable (hrange : TLBRange sp s) (hdist : TLBDistinct s) (hfull : ∀ i, (s.tlb i).valid = true)
include hrange hdist hfull

theorem tlbRef_inj {i j : Fin c.TLBSize} (h : tlbRef sp s i = tlbRef sp s j) : i = j := by
  obtain ⟨hi, -⟩ := hrange i (hfull i)
  obtain ⟨hj, -⟩ := hrange j (hfull j)
  have hnat : (s.tlb i).virtualPage.toNat = (s.tlb j).virtualPage.toNat := congrArg PTRef.vpn h
  exact hdist i j (hfull i) (hfull j) (by omega)

/-- A turn on the entry at the hand, whatever becomes of its use bit in the page table. -/
theorem PassedTLB.turn (h : PassedTLB sp s k s') (oldUse : Bool) {j : ℕ} (hj : j ≤ k) :
    (turnTLB sp s'.indexTLBSndChc false oldUse s').pageTable (tlbRef sp s (tlbAhead s j)) =
      { s.pageTable (tlbRef sp s (tlbAhead s j)) with
        use := if tlbAhead s j = tlbAhead s k then oldUse else true
        dirty := (s.tlb (tlbAhead s j)).dirty } := by
  rw [turnTLB_pageTable, h.tlbRef_eq, h.hand]
  by_cases hjk : tlbAhead s j = tlbAhead s k
  · rw [if_pos (by rw [hjk]), if_pos hjk, h.tlb, h.entry, hjk]
    cases oldUse <;> rfl
  · rw [if_neg fun hr => hjk (tlbRef_inj hrange hdist hfull hr), if_neg hjk]
    refine h.examined j (lt_of_le_of_ne hj ?_)
    rintro rfl
    exact hjk rfl

theorem PassedTLB.succ (h : PassedTLB sp s k s') :
    PassedTLB sp s (k + 1) (turnTLB sp s'.indexTLBSndChc false true s') where
  hand := by
    change next s'.indexTLBSndChc = _
    rw [h.hand, next_ahead]
  tlb := h.turn_tlb true
  examined j hj := by
    rw [h.turn hrange hdist hfull true (Nat.le_of_lt_succ hj), ite_self]
  other r hr := h.turn_other true fun j hj => hr j (Nat.lt_succ_of_le hj)
  rest := by
    rw [h.rest]
    rfl

/-- The loop passes over the entries ahead whose use bits are set. -/
theorem getNextSCTLBLoop_passed (hk : k ≤ c.TLBSize)
    (huse : ∀ j < k, (s.tlb (tlbAhead s j)).use = true) :
    ∃ s', PassedTLB sp s k s' ∧
      ∀ fuel, getNextSCTLBLoop sp (k + fuel) s = getNextSCTLBLoop sp fuel s' := by
  induction k with
  | zero => exact ⟨s, .zero sp s, fun fuel => by rw [Nat.zero_add]⟩
  | succ k ih =>
    obtain ⟨s', hpass, hloop⟩ := ih (by omega) fun j hj => huse j (by omega)
    refine ⟨_, hpass.succ hrange hdist hfull, fun fuel => ?_⟩
    obtain ⟨h0, h1⟩ := hrange (tlbAhead s k) (hfull _)
    have hset : (s'.tlb s'.indexTLBSndChc).use = true := by
      rw [hpass.hand, hpass.tlb]
      exact (passed_ahead (fun i => (s.tlb i).use) s.indexTLBSndChc hk).trans
        (huse k (by omega))
    rw [Nat.add_right_comm, Nat.add_assoc, hloop, getNextSCTLBLoop_succ, if_pos hset]
    · rw [hpass.hand, hpass.tlb]
      exact h0
    · rw [hpass.hand, hpass.tlb, hpass.rest]
      exact h1

end Full

/-! ### The whole loop -/

/-- The hand has passed over `k` entries and taken the next.  The entries passed over have lost
their use bits.  The page table has the dirty bits of all these entries; their pages are marked as
used, except that of the entry taken. -/
structure SweptTLB (sp : ℕ) (s : VM c) (k : ℕ) (s' : VM c) : Prop where
  hand : s'.indexTLBSndChc = next (tlbAhead s k)
  tlb : ∀ i, s'.tlb i =
    { s.tlb i with use := (s.tlb i).use && !decide (∃ j < k, tlbAhead s j = i) }
  examined : ∀ j ≤ k, s'.pageTable (tlbRef sp s (tlbAhead s j)) =
    { s.pageTable (tlbRef sp s (tlbAhead s j)) with
      use := decide (tlbAhead s j ≠ tlbAhead s k), dirty := (s.tlb (tlbAhead s j)).dirty }
  other : ∀ r, (∀ j ≤ k, r ≠ tlbRef sp s (tlbAhead s j)) → s'.pageTable r = s.pageTable r
  rest : s' = { s with
    tlb := s'.tlb, pageTable := s'.pageTable, indexTLBSndChc := s'.indexTLBSndChc }

/-- The last turn, on an entry whose use bit is clear by then. -/
theorem PassedTLB.swept (hrange : TLBRange sp s) (hdist : TLBDistinct s)
    (hfull : ∀ i, (s.tlb i).valid = true) (h : PassedTLB sp s k s')
    (hclear : (s'.tlb (tlbAhead s k)).use = false) :
    SweptTLB sp s k (turnTLB sp s'.indexTLBSndChc false false s') where
  hand := by
    change next s'.indexTLBSndChc = _
    rw [h.hand]
  tlb i := by
    rw [h.turn_tlb, passed_succ]
    rw [h.tlb] at hclear
    by_cases hi : i = tlbAhead s k
    · rw [if_pos hi, hi]
      exact congrArg (fun u => { s.tlb (tlbAhead s k) with use := u }) hclear.symm
    · rw [if_neg hi]
      rfl
  examined j hj := by
    rw [h.turn hrange hdist hfull false hj]
    by_cases hjk : tlbAhead s j = tlbAhead s k
    · simp [hjk]
    · simp [hjk]
  other _ hr := h.turn_other false hr
  rest := by
    rw [h.rest]
    rfl

/-- The number of entries that the loop passes over. -/
def tlbSkips (s : VM c) : ℕ := skips (fun i => (s.tlb i).use) s.indexTLBSndChc

/-- When every entry is valid, the loop takes the first entry ahead that has not been used, in one
turn more than it passes over entries. -/
theorem getNextSCTLBLoop_swept (hrange : TLBRange sp s) (hdist : TLBDistinct s)
    (hfull : ∀ i, (s.tlb i).valid = true) :
    ∃ s', SweptTLB sp s (tlbSkips s) s' ∧ ∀ fuel, tlbSkips s < fuel →
      getNextSCTLBLoop sp fuel s = .ok (tlbAhead s (tlbSkips s), s') := by
  have hle : tlbSkips s ≤ c.TLBSize := skips_le _ _
  obtain ⟨s', hpass, hloop⟩ := getNextSCTLBLoop_passed hrange hdist hfull hle
    fun j hj => use_of_lt_skips hj
  have hclear : (s'.tlb (tlbAhead s (tlbSkips s))).use = false := by
    rw [hpass.tlb]
    exact passed_victim (fun i => (s.tlb i).use) s.indexTLBSndChc
  refine ⟨_, hpass.swept hrange hdist hfull hclear, fun fuel hfuel => ?_⟩
  obtain ⟨m, rfl⟩ := Nat.exists_eq_add_of_lt hfuel
  obtain ⟨h0, h1⟩ := hrange (tlbAhead s (tlbSkips s)) (hfull _)
  rw [Nat.add_assoc, hloop, getNextSCTLBLoop_succ, hpass.hand, if_neg (by simp [hclear])]
  · rw [hpass.hand, hpass.tlb]
    exact h0
  · rw [hpass.hand, hpass.tlb, hpass.rest]
    exact h1

/-- **Second chance in the TLB.** `getNextSCTLB` returns.  If an entry is invalid, it is the first
such entry, and nothing changes.  Otherwise it is the first entry in cyclic order from the hand that
has not been used, or the entry at the hand if all have been; the loop takes one turn for it and one
for each entry before it, at most `TLBSize + 1`. -/
theorem second_chance_TLB (hrange : TLBRange sp s) (hdist : TLBDistinct s) :
    (∀ x, (s.tlb x).valid = false → (∀ y < x, (s.tlb y).valid = true) →
      getNextSCTLB sp s = .ok (x, s)) ∧
    ((∀ i, (s.tlb i).valid = true) → ∃ x k s', getNextSCTLB sp s = .ok (x, s') ∧
      x = tlbAhead s k ∧ (∀ j < k, (s.tlb (tlbAhead s j)).use = true) ∧
      (k < c.TLBSize ∧ (s.tlb x).use = false ∨
        k = c.TLBSize ∧ x = s.indexTLBSndChc ∧ ∀ i, (s.tlb i).use = true) ∧
      (∀ fuel, k + 1 ≤ fuel → getNextSCTLBLoop sp fuel s = .ok (x, s')) ∧
      SweptTLB sp s k s') := by
  constructor
  · intro x hx hbefore
    have hfind : (List.finRange c.TLBSize).find? (fun x => !(s.tlb x).valid) = some x := by
      refine List.find?_eq_some_iff_getElem.2 ⟨by simp [hx], x, by simp, by simp, fun j hj => ?_⟩
      rw [List.getElem_finRange]
      simp [hbefore ⟨j, hj.trans x.isLt⟩ hj]
    unfold getNextSCTLB
    rw [hfind]
  · intro hfull
    obtain ⟨s', hswept, hloop⟩ := getNextSCTLBLoop_swept hrange hdist hfull
    have hle : tlbSkips s ≤ c.TLBSize := skips_le _ _
    have hfind : (List.finRange c.TLBSize).find? (fun x => !(s.tlb x).valid) = none :=
      List.find?_eq_none.2 fun i _ => by simp [hfull i]
    refine ⟨_, tlbSkips s, s', ?_, rfl, fun j hj => use_of_lt_skips hj, ?_,
      fun fuel => hloop fuel, hswept⟩
    · unfold getNextSCTLB
      rw [hfind]
      exact hloop _ (Nat.lt_succ_of_le hle)
    · rcases skips_cases (fun i => (s.tlb i).use) s.indexTLBSndChc with h | h
      · exact Or.inl h
      · exact Or.inr h

/-- A machine whose TLB is full, with the use bit of entry 2 clear. -/
def fullTLB : VM machineH :=
  { boot (fun _ => none) none (fun _ => 0) (fun _ => 0)
      (fun _ => ⟨0, 0, false, false, false, false⟩) with
    tlb := fun i => ⟨(i : ℕ), (i : ℕ), true, false, decide ((i : ℕ) ≠ 2), true⟩
    spaces := fun _ => ⟨4, 4, 4, 4, ""⟩ }

/-- The hand passes over two entries and takes the third. -/
theorem second_chance_TLB_fullTLB :
    ∃ s', getNextSCTLB 0 fullTLB = .ok (⟨2, by decide⟩, s') ∧ SweptTLB 0 fullTLB 2 s' := by
  have hrange : TLBRange 0 fullTLB := by
    intro i _
    revert i
    decide
  have hdist : TLBDistinct fullTLB := fun i j _ _ h => Fin.ext (Int.ofNat.inj h)
  obtain ⟨x, k, s', hrun, rfl, -, hfirst, -, hswept⟩ :=
    (second_chance_TLB hrange hdist).2 (by decide)
  have hk : k = 2 := by
    have honly : ∀ k < 4, (fullTLB.tlb (tlbAhead fullTLB k)).use = false → k = 2 := by decide
    rcases hfirst with ⟨hlt, hclear⟩ | ⟨-, -, hall⟩
    · exact honly k hlt hclear
    · exact absurd (hall ⟨2, by decide⟩) (by decide)
  subst hk
  exact ⟨s', hrun, hswept⟩

/-! ### The frames -/

/-- The frame `k` places after the hand. -/
abbrev frameAhead (s : VM c) (k : ℕ) : Fin c.NumPhysPages := ahead s.indexSWAPSndChc k

/-- `k` frames have been passed over: their pages have lost their use bits. -/
structure PassedIPT (s : VM c) (k : ℕ) (hand : Fin c.NumPhysPages) (s' : VM c) : Prop where
  hand : s'.indexSWAPSndChc = hand
  cleared : ∀ j < k, ∀ r, s.IPT (frameAhead s j) = some r →
    s'.pageTable r = { s.pageTable r with use := false }
  other : ∀ r, (∀ j < k, s.IPT (frameAhead s j) ≠ some r) → s'.pageTable r = s.pageTable r
  rest : s' = { s with pageTable := s'.pageTable, indexSWAPSndChc := s'.indexSWAPSndChc }

theorem PassedIPT.zero (s : VM c) : PassedIPT s 0 s.indexSWAPSndChc s where
  hand := rfl
  cleared j hj := absurd hj (Nat.not_lt_zero j)
  other _ _ := rfl
  rest := rfl

/-- The use bits aside, the page table is as it was. -/
theorem PassedIPT.entry {hand : Fin c.NumPhysPages} (h : PassedIPT s k hand s') (r : PTRef) :
    s'.pageTable r = { s.pageTable r with use := (s'.pageTable r).use } := by
  by_cases hr : ∃ j < k, s.IPT (frameAhead s j) = some r
  · obtain ⟨j, hj, hjr⟩ := hr
    rw [h.cleared j hj r hjr]
  · rw [h.other r fun j hj hjr => hr ⟨j, hj, hjr⟩]

/-- A turn on the frame at the hand, whose page loses its use bit. -/
theorem PassedIPT.succ (h : PassedIPT s k (frameAhead s k) s')
    (hr : s.IPT (frameAhead s k) = some r) :
    PassedIPT s (k + 1) (frameAhead s (k + 1)) (turnIPT s'.indexSWAPSndChc r s') where
  hand := by
    change next s'.indexSWAPSndChc = _
    rw [h.hand, next_ahead]
  cleared j hj r' hjr := by
    change update s'.pageTable r _ r' = _
    by_cases hrr : r' = r
    · rw [hrr, update_self, h.entry r]
    · rw [update_of_ne hrr]
      refine h.cleared j (lt_of_le_of_ne (Nat.le_of_lt_succ hj) ?_) r' hjr
      rintro rfl
      exact hrr (Option.some.inj (hjr.symm.trans hr))
  other r' hother := by
    have hrr : r' ≠ r := by
      rintro rfl
      exact hother k (Nat.lt_succ_self k) hr
    refine (update_of_ne hrr _ _).trans (h.other r' fun j hj => ?_)
    exact hother j (Nat.lt_succ_of_lt hj)
  rest := by
    rw [h.rest]
    rfl

/-- The page in a frame that the hand has not reached yet has its use bit. -/
theorem PassedIPT.use_ahead (hfull : IPTFull s) (h : PassedIPT s k (frameAhead s k) s')
    (hk : k < c.NumPhysPages) (hr : s.IPT (frameAhead s k) = some r) :
    s'.pageTable r = s.pageTable r := by
  refine h.other r fun j hj hjr => ?_
  obtain ⟨r', hr', -, hdist⟩ := hfull (frameAhead s k)
  rw [hr] at hr'
  cases hr'
  exact absurd (ahead_injOn _ (hj.trans hk) hk (hdist _ hjr)) hj.ne

theorem frameUse_of_IPT {f : Fin c.NumPhysPages} (h : s.IPT f = some r) :
    frameUse s f = (s.pageTable r).use := by
  simp only [frameUse, h]

/-- A turn of the loop on a frame that holds a valid page. -/
theorem getNextSCSWAPLoop_succ (hr : s.IPT s.indexSWAPSndChc = some r)
    (hvalid : (s.pageTable r).valid = true) (fuel : ℕ) :
    getNextSCSWAPLoop (fuel + 1) s =
      if (s.pageTable r).use then getNextSCSWAPLoop fuel (turnIPT s.indexSWAPSndChc r s)
      else .ok (s.indexSWAPSndChc,
        { s with indexSWAPSndChc := next s.indexSWAPSndChc }) := by
  simp only [getNextSCSWAPLoop, hr, hvalid, Bool.true_eq_false, if_false]
  rfl

/-- The loop in a state after some turns. -/
theorem PassedIPT.loop_succ (hfull : IPTFull s) (h : PassedIPT s k (frameAhead s k) s') (fuel : ℕ) :
    ∃ r, s.IPT (frameAhead s k) = some r ∧
      getNextSCSWAPLoop (fuel + 1) s' =
        if (s'.pageTable r).use then getNextSCSWAPLoop fuel (turnIPT s'.indexSWAPSndChc r s')
        else .ok (frameAhead s k, { s' with indexSWAPSndChc := next (frameAhead s k) }) := by
  obtain ⟨r, hr, hvalid, -⟩ := hfull (frameAhead s k)
  refine ⟨r, hr, ?_⟩
  have hhand : s'.IPT s'.indexSWAPSndChc = some r := by
    rw [h.hand, h.rest]
    exact hr
  rw [getNextSCSWAPLoop_succ hhand (by rw [h.entry]; exact hvalid) fuel, h.hand]

/-- The loop passes over the frames ahead whose pages have been used. -/
theorem getNextSCSWAPLoop_passed (hfull : IPTFull s) (hk : k ≤ c.NumPhysPages)
    (huse : ∀ j < k, frameUse s (frameAhead s j) = true) :
    ∃ s', PassedIPT s k (frameAhead s k) s' ∧
      ∀ fuel, getNextSCSWAPLoop (k + fuel) s = getNextSCSWAPLoop fuel s' := by
  induction k with
  | zero =>
    refine ⟨s, ?_, fun fuel => by rw [Nat.zero_add]⟩
    rw [frameAhead, ahead_zero]
    exact .zero s
  | succ k ih =>
    obtain ⟨s', hpass, hloop⟩ := ih (by omega) fun j hj => huse j (by omega)
    obtain ⟨r, hr, -⟩ := hfull (frameAhead s k)
    refine ⟨_, hpass.succ hr, fun fuel => ?_⟩
    obtain ⟨r', hr', hturn⟩ := hpass.loop_succ hfull fuel
    obtain rfl : r' = r := Option.some.inj (hr'.symm.trans hr)
    have hset : (s'.pageTable r').use = true := by
      rw [hpass.use_ahead hfull hk hr, ← frameUse_of_IPT hr]
      exact huse k (Nat.lt_succ_self k)
    rw [Nat.add_right_comm, Nat.add_assoc, hloop, hturn, if_pos hset]

/-- The number of frames that the loop passes over. -/
def frameSkips (s : VM c) : ℕ := skips (frameUse s) s.indexSWAPSndChc

/-- When the hand reaches the victim, its page has no use bit. -/
theorem PassedIPT.use_victim (hfull : IPTFull s)
    (h : PassedIPT s (frameSkips s) (frameAhead s (frameSkips s)) s')
    (hr : s.IPT (frameAhead s (frameSkips s)) = some r) : (s'.pageTable r).use = false := by
  rcases skips_cases (frameUse s) s.indexSWAPSndChc with ⟨hlt, hclear⟩ | ⟨hall, hhand, -⟩
  · rw [h.use_ahead hfull hlt hr, ← frameUse_of_IPT hr]
    exact hclear
  · -- the hand has gone round, and the victim was the first frame to be passed over
    have hfirst : frameAhead s 0 = frameAhead s (frameSkips s) := by
      rw [frameAhead, ahead_zero]
      exact hhand.symm
    have hpos : 0 < frameSkips s := by
      rw [frameSkips, hall]
      exact s.indexSWAPSndChc.pos
    rw [h.cleared 0 hpos r (hfirst ▸ hr)]

/-- **Second chance among the frames.** When the IPT is full, with a valid page of its own in every
frame, `getNextSCSWAP` returns the first frame in cyclic order from the hand whose page has not been
used, or the frame at the hand if all have been; the loop takes one turn for it and one for each
frame before it, at most `NumPhysPages + 1`.  The pages in the frames before it lose their use bits,
the hand is just after it, and nothing else changes. -/
theorem second_chance_SWAP (hfull : IPTFull s) :
    ∃ x k s', getNextSCSWAP s = .ok (x, s') ∧ x = frameAhead s k ∧
      (∀ j < k, frameUse s (frameAhead s j) = true) ∧
      (k < c.NumPhysPages ∧ frameUse s x = false ∨
        k = c.NumPhysPages ∧ x = s.indexSWAPSndChc ∧ ∀ f, frameUse s f = true) ∧
      (∀ fuel, k + 1 ≤ fuel → getNextSCSWAPLoop fuel s = .ok (x, s')) ∧
      PassedIPT s k (next x) s' := by
  have hle : frameSkips s ≤ c.NumPhysPages := skips_le _ _
  obtain ⟨s', hpass, hloop⟩ := getNextSCSWAPLoop_passed hfull hle fun j hj =>
    use_of_lt_skips hj
  have hrun : ∀ fuel, frameSkips s + 1 ≤ fuel → getNextSCSWAPLoop fuel s =
      .ok (frameAhead s (frameSkips s),
        { s' with indexSWAPSndChc := next (frameAhead s (frameSkips s)) }) := by
    intro fuel hfuel
    obtain ⟨m, rfl⟩ := Nat.exists_eq_add_of_le hfuel
    obtain ⟨r, hr, hturn⟩ := hpass.loop_succ hfull m
    rw [Nat.add_assoc, Nat.add_comm 1 m, hloop, hturn, if_neg]
    simp [hpass.use_victim hfull hr]
  refine ⟨_, frameSkips s, _, hrun _ (Nat.succ_le_succ hle), rfl,
    fun j hj => use_of_lt_skips hj, ?_, hrun, ?_⟩
  · exact skips_cases (frameUse s) s.indexSWAPSndChc
  · exact ⟨rfl, hpass.cleared, hpass.other, by rw [hpass.rest]⟩

/-- A machine whose frames hold the pages of a space, with the use bit of page 1 clear. -/
def fullIPT : VM machineH :=
  { boot (fun _ => none) none (fun _ => 0) (fun _ => 0)
      (fun _ => ⟨0, 0, false, false, false, false⟩) with
    pageTable := fun r => ⟨r.vpn, r.vpn, true, false, decide (r.vpn ≠ 1), true⟩
    IPT := fun f => some ⟨0, f⟩ }

/-- The hand passes over frame 0 and takes frame 1. -/
theorem second_chance_SWAP_fullIPT :
    ∃ s', getNextSCSWAP fullIPT = .ok (⟨1, by decide⟩, s') ∧
      PassedIPT fullIPT 1 ⟨2, by decide⟩ s' := by
  have hfull : IPTFull fullIPT := by
    intro f
    refine ⟨⟨0, f⟩, rfl, rfl, fun g hg => ?_⟩
    exact Fin.ext (congrArg PTRef.vpn (Option.some.inj hg))
  obtain ⟨x, k, s', hrun, rfl, hused, hfirst, -, hpass⟩ := second_chance_SWAP hfull
  have hk : k = 1 := by
    rcases hfirst with ⟨-, hclear⟩ | ⟨-, -, hall⟩
    · rcases Nat.lt_trichotomy k 1 with hlt | rfl | hgt
      · obtain rfl : k = 0 := by omega
        exact absurd hclear (by decide)
      · rfl
      · exact absurd (hused 1 hgt) (by decide)
    · exact absurd (hall ⟨1, by decide⟩) (by decide)
  subst hk
  exact ⟨s', hrun, hpass⟩

end Nachos
