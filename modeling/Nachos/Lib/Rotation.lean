import Mathlib.Tactic
import Mathlib.Order.Bounds.Basic

/-!
# A platter that turns at constant speed

`sectors` sectors pass under a head one after the other, each in `period` units of time: from time
`period * q` to `period * (q + 1)` it is sector `q` modulo `sectors`.

* `toBoundary`: how long it is to the next time that a sector begins;
* `distance`: how many sectors pass before a given one begins;
* `isLeast_passed`: the earliest time at which a given sector has passed completely, for a head that
  is there from `start` on.
-/

namespace Rotation

/-- From `t` to the next multiple of `period`. -/
def toBoundary (period t : ℤ) : ℤ := -t % period

/-- The number of sectors before `target` that pass from the beginning of `start` on. -/
def distance (sectors target start : ℤ) : ℤ := (target - start) % sectors

variable {period sectors : ℤ}

theorem toBoundary_nonneg (hp : 0 < period) (t : ℤ) : 0 ≤ toBoundary period t :=
  Int.emod_nonneg _ hp.ne'

theorem toBoundary_lt (hp : 0 < period) (t : ℤ) : toBoundary period t < period :=
  Int.emod_lt_of_pos _ hp

theorem distance_nonneg (hs : 0 < sectors) (target start : ℤ) : 0 ≤ distance sectors target start :=
  Int.emod_nonneg _ hs.ne'

/-- The rounding as it is computed from the time since the last boundary. -/
theorem toBoundary_eq (hp : 0 < period) (t : ℤ) :
    toBoundary period t = if 0 < t % period then period - t % period else 0 := by
  have hnonneg : 0 ≤ t % period := Int.emod_nonneg _ hp.ne'
  have hlt : t % period < period := Int.emod_lt_of_pos _ hp
  unfold toBoundary
  split_ifs with hover
  · rw [← Int.emod_eq_of_lt (b := period) (a := period - t % period) (by omega) (by omega)]
    refine Int.ModEq.symm ?_
    calc period - t % period ≡ 0 - t [ZMOD period] :=
          Int.ModEq.sub (Int.modEq_zero_iff_dvd.2 (dvd_refl period)) (Int.mod_modEq t period)
      _ = -t := zero_sub t
  · exact Int.emod_eq_zero_of_dvd (Int.dvd_neg.2 (Int.dvd_of_emod_eq_zero (by omega)))

theorem dvd_boundary (t : ℤ) : period ∣ t + toBoundary period t := by
  have h := Int.emod_add_mul_ediv (-t) period
  refine ⟨-(-t / period), ?_⟩
  unfold toBoundary
  linarith

/-- The boundary is the first at `t` or later. -/
theorem isLeast_boundary (hp : 0 < period) (t : ℤ) :
    IsLeast {u | t ≤ u ∧ period ∣ u} (t + toBoundary period t) := by
  refine ⟨⟨by have := toBoundary_nonneg hp t; omega, dvd_boundary t⟩, ?_⟩
  rintro u ⟨htu, hu⟩
  by_contra hlt
  -- two multiples of `period` would be closer than `period`
  have hdiff : period ∣ t + toBoundary period t - u := Int.dvd_sub (dvd_boundary t) hu
  have hle := Int.le_of_dvd (by omega) hdiff
  have := toBoundary_lt hp t
  omega

theorem distance_turn (target start : ℤ) :
    (start + distance sectors target start) % sectors = target % sectors := by
  unfold distance
  rw [Int.add_emod_emod, add_sub_cancel]

/-- No sector with the number of `target` begins between `start` and `distance` sectors later. -/
theorem isLeast_turn (hs : 0 < sectors) (target start : ℤ) :
    IsLeast {k | start ≤ k ∧ k % sectors = target % sectors}
      (start + distance sectors target start) := by
  refine ⟨⟨by have := distance_nonneg hs target start; omega, distance_turn target start⟩, ?_⟩
  rintro k ⟨hk, hmod⟩
  have hdist : distance sectors target start = (k - start) % sectors :=
    (Int.ModEq.sub (show k ≡ target [ZMOD sectors] from hmod) (Int.ModEq.refl start)).symm
  have hle : (k - start) % sectors ≤ k - start := by
    have hsum := Int.emod_add_mul_ediv (k - start) sectors
    have hquot : 0 ≤ sectors * ((k - start) / sectors) :=
      mul_nonneg hs.le (Int.ediv_nonneg (by omega) hs.le)
    omega
  rw [hdist]
  omega

/-- A head that is on the track from `start` on: when sector `target` has passed it. -/
def passed (period sectors target start : ℤ) : ℤ :=
  let boundary := start + toBoundary period start
  boundary + distance sectors target (boundary / period) * period + period

/-- **It is the earliest time** at which a sector ends that began at `start` or later and that has
the number of `target`. -/
theorem isLeast_passed (hp : 0 < period) (hs : 0 < sectors) (target start : ℤ) :
    IsLeast {t | start + period ≤ t ∧ period ∣ t ∧ (t / period - 1) % sectors = target % sectors}
      (passed period sectors target start) := by
  obtain ⟨q, hq⟩ : period ∣ start + toBoundary period start := dvd_boundary start
  obtain ⟨⟨hfrom, hnumber⟩, hturn⟩ := isLeast_turn hs target q
  have hpassed : passed period sectors target start =
      period * (q + distance sectors target q + 1) := by
    simp only [passed, hq, Int.mul_ediv_cancel_left _ hp.ne']
    ring
  constructor
  · refine ⟨?_, ?_, ?_⟩
    · have hstart : start ≤ period * q := hq ▸ (isLeast_boundary hp start).1.1
      rw [hpassed]
      nlinarith [distance_nonneg hs target q]
    · exact hpassed ▸ dvd_mul_right _ _
    · rw [hpassed, Int.mul_ediv_cancel_left _ hp.ne', add_sub_cancel_right]
      exact hnumber
  · rintro t ⟨ht, ⟨k, rfl⟩, hk⟩
    rw [Int.mul_ediv_cancel_left _ hp.ne'] at hk
    -- the sector that ends at `period * k` has begun at a boundary not before `start`
    have hbegins : period * q ≤ period * (k - 1) := by
      rw [← hq]
      refine (isLeast_boundary hp start).2 ⟨?_, dvd_mul_right _ _⟩
      rw [mul_sub, mul_one]
      omega
    have hle := hturn ⟨le_of_mul_le_mul_left hbegins hp, hk⟩
    rw [hpassed]
    exact mul_le_mul_of_nonneg_left (by omega) hp.le

end Rotation
