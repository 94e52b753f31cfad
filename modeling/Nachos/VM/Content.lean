import Nachos.VM.Pages

/-!
# What is in the pages

`Content spec s` says that the bytes `spec` prescribes are where the tables say: in the frame of a
valid page, in the slot of a swapped page; and that a page can be dropped without loss: each of its
prescribed bytes is in the executable, or the page is `Dirtied`, so that it will be written to the
swap file first.

`load` keeps `Content spec` for any `spec`, and so does a read; a write keeps it for the `spec` with
the written bytes (`Content.accessed`).
-/

namespace Nachos

variable {c : Sizes}

structure Content (spec : PTRef → ℕ → Option Byte) (s : VM c) : Prop where
  mem : ∀ r (f : Fin c.NumPhysPages) o b, s.HasEntry r → (s.pageTable r).valid = true →
    (s.pageTable r).physicalPage = (f : ℕ) → o < PageSize → spec r o = some b →
    s.mainMemory (f * PageSize + o) = b
  swap : ∀ r (k : Fin c.SWAPSize) o b, s.HasEntry r → (s.pageTable r).valid = false →
    (s.pageTable r).physicalPage = (k : ℕ) → o < PageSize → spec r o = some b →
    slotByte s k o = some b
  backed : ∀ r o b, s.HasEntry r → o < PageSize → spec r o = some b →
    imageByte s r o = some b ∨ Dirtied s r

namespace Content

variable {spec : PTRef → ℕ → Option Byte} {s s' : VM c} {sp vpn o : ℕ} {b : Byte} {r : PTRef}

theorem mono {spec' : PTRef → ℕ → Option Byte} (h : Content spec s)
    (hle : ∀ r o b, spec' r o = some b → spec r o = some b) : Content spec' s where
  mem r f o b hE hv hp ho hb := h.mem r f o b hE hv hp ho (hle r o b hb)
  swap r k o b hE hv hp ho hb := h.swap r k o b hE hv hp ho (hle r o b hb)
  backed r o b hE ho hb := h.backed r o b hE ho (hle r o b hb)

/-- `load` finds the byte of a page that is not in memory. -/
theorem source (h : Content spec s) (hF : Frames none s) (hE : s.HasEntry r)
    (hv : (s.pageTable r).valid = false)
    (hslot : (s.pageTable r).dirty = true →
      ∃ k : Fin c.SWAPSize, (s.pageTable r).physicalPage = (k : ℕ))
    (ho : o < PageSize) (hb : spec r o = some b) : sourceByte s r o = some b := by
  unfold sourceByte
  split_ifs with hd hpos
  · obtain ⟨k, hk⟩ := hslot hd
    rw [hk, Int.toNat_natCast]
    exact h.swap r k o b hE hv hk ho hb
  · obtain ⟨k, hk⟩ := hslot hd
    omega
  · refine (h.backed r o b hE ho hb).resolve_right fun hdirty => hd ?_
    exact (dirtied_of_invalid hF hv).1 hdirty

/-- **`load` keeps the contents of all pages.** -/
theorem loaded (h : Content spec s) (hl : Loaded sp vpn s s') (hF : Frames none s) (hs : Slots s)
    (hc : s.current = some sp) (hE : s.HasEntry ⟨sp, vpn⟩) (hno : ∀ i, ¬ s.Maps i vpn) :
    Content spec s' := by
  have hsolo := soloVictim_none s ⟨sp, vpn⟩
  have hE' : ∀ r, s'.HasEntry r → s.HasEntry r := fun r => (hl.sameSpaces.hasEntry r).1
  refine ⟨?_, ?_, ?_⟩
  · intro r f o b hr hv' hp ho hb
    by_cases hstay : (s.pageTable ⟨sp, vpn⟩).valid = true ∨ r ≠ ⟨sp, vpn⟩
    · obtain ⟨hv, hpp, hmem⟩ := hl.survivor hF hsolo (hE' r hr) hv' hstay
      rw [hpp] at hp
      rw [hmem f hp o ho]
      exact h.mem r f o b (hE' r hr) hv hp ho hb
    · -- the page that was fetched
      obtain ⟨hinv, hne⟩ := not_or.1 hstay
      obtain rfl := not_not.1 hne
      have hv := eq_false_of_ne_true hinv
      have hsrc := h.source hF hE hv (hl.slot hv) ho hb
      obtain ⟨-, hp', hbyte⟩ := hl.served.byte hv (hs.slotLeft hE hv)
      obtain rfl : f = takenFrame s := Fin.ext (by omega)
      rcases hbyte o ho with heq | ⟨-, hnone, -⟩
      · rw [heq, hsrc]
        rfl
      · rw [hsrc] at hnone
        cases hnone
  · intro r k o b hr hv' hp ho hb
    cases hv : (s.pageTable r).valid with
    | true =>
      -- the victim was dirty, and its bytes have just been written
      obtain ⟨-, -, hI, -, hclean, hslot⟩ := hl.victim hF hsolo hE hv hv'
      cases hd : (s'.pageTable r).dirty with
      | false =>
        have := hclean hd
        omega
      | true =>
        obtain ⟨j, file, -, hj, hfile⟩ := hslot hd
        obtain rfl : j = k := Fin.ext (by omega)
        rw [slotByte, hfile, Option.bind_some, File.get?_writeAt_of_lt _ _ ho,
          h.mem r _ o b (hE' r hr) hv (hF.ipt _ r (by simp) hI).2.2 ho hb]
    | false =>
      have hne : r ≠ ⟨sp, vpn⟩ := by
        rintro rfl
        rw [hl.valid] at hv'
        cases hv'
      rw [(hl.waiting hF hsolo hE hv hne).2.2] at hp
      have hold := h.swap r k o b (hE' r hr) hv hp ho hb
      have hfree : (s.pageTable ⟨sp, vpn⟩).valid = false → ∀ j, takenSlot s = some j →
          (k : ℕ) ≠ j := fun _ j hj he =>
        hs.ne_takenSlot (hE' r hr) hv hp (by rw [hj, Fin.ext he])
      rcases hl.served.slotByte hfree ho with heq | ⟨hnone, -⟩
      · rw [heq, hold]
      · rw [hold] at hnone
        cases hnone
  · intro r o b hr ho hb
    rw [imageByte_congr hl.sameSpaces.spaces hl.sameSpaces.files]
    exact (h.backed r o b (hE' r hr) ho hb).imp id fun hd =>
      Dirtied.loaded hl hF hsolo hE hd hc hno

section Access

variable {addr : BitVec 32} {size : ℕ} {w : Option (BitVec 32)}

theorem hit (h : Content spec s) (hF : Frames none s) (w : Option (BitVec 32))
    (hc : s.current = some sp) {i : Fin c.TLBSize} {f : Fin c.NumPhysPages}
    (hm : s.Maps i (pageOf addr))
    (hp : (s.pageTable ⟨sp, pageOf addr⟩).physicalPage = (f : ℕ))
    (hsz : offsetOf addr + size ≤ PageSize) :
    Content (afterAccess spec ⟨sp, pageOf addr⟩ (offsetOf addr) size w)
      { s.touch i w.isSome with
        mainMemory := match w with
          | none => s.mainMemory
          | some value => storeBytes s.mainMemory (f * PageSize + offsetOf addr) size value } := by
  cases w with
  | none =>
    exact
      { mem := h.mem
        swap := h.swap
        backed := fun r o b hE ho hb =>
          (h.backed r o b hE ho hb).imp id fun hd => hd.touch i false }
  | some value =>
    have hother : ∀ r o b, r ≠ ⟨sp, pageOf addr⟩ →
        afterAccess spec ⟨sp, pageOf addr⟩ (offsetOf addr) size (some value) r o = some b →
        spec r o = some b := by
      intro r o b hne hb
      simpa only [afterAccess, overwrite, hne, false_and, if_false] using hb
    refine ⟨?_, ?_, ?_⟩
    · intro r g o b hr hrv hrp ho hb
      refine (hF.store_byte hc hm hp hsz value hr hrv hrp ho).trans ?_
      simp only [afterAccess, overwrite] at hb
      split_ifs at hb ⊢
      · exact Option.some.inj hb
      · exact h.mem r g o b hr hrv hrp ho hb
    · intro r k o b hr hrv hrp ho hb
      have hne : r ≠ ⟨sp, pageOf addr⟩ := by
        rintro rfl
        exact Bool.false_ne_true (hrv.symm.trans (hF.mirror hc hm).2.1)
      exact h.swap r k o b hr hrv hrp ho (hother r o b hne hb)
    · intro r o b hr ho hb
      by_cases hne : r = ⟨sp, pageOf addr⟩
      · subst hne
        refine Or.inr (Or.inl ⟨i, hc, ?_, ?_⟩)
        · simpa [VM.Maps, VM.touch] using hm
        · simp [VM.touch]
      · exact (h.backed r o b hr ho (hother r o b hne hb)).imp id fun hd => hd.touch i true

/-- **An access keeps the contents of all pages**, up to the bytes it writes; when it only loads
the page, up to nothing. -/
theorem accessed (h : Content spec s) (ha : Accessed sp addr size w s s') (hF : Frames none s)
    (hs : Slots s) (hc : s.current = some sp) (hE : s.HasEntry ⟨sp, pageOf addr⟩) :
    (¬ ∃ i, s.Maps i (pageOf addr)) ∧ Content spec s' ∨
    (∃ i, s.Maps i (pageOf addr)) ∧
      Content (afterAccess spec ⟨sp, pageOf addr⟩ (offsetOf addr) size w) s' := by
  cases ha with
  | miss s' hno hl =>
    have h' : Content spec { s with BadVAddrReg := addr } := { h with }
    exact Or.inl ⟨by simpa using hno, h'.loaded hl { hF with } { hs with } hc hE hno⟩
  | hit i f hm hv hp hsz => exact Or.inr ⟨⟨i, hm⟩, h.hit hF w hc hm hp hsz⟩

end Access

end Content

end Nachos
