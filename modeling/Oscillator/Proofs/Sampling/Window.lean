import Oscillator.Proofs.Sampling.Growth

/-! # What sampling reads

A derivative looks one step back inside the domain and three steps ahead at its edge, and the times of a
grid lie between zero and its bound. So no curve depends on what its signal is at a negative time, or more
than three steps after the bound.
-/
namespace Oscillator

open Exact

/-- Two signals have the same values from time zero up to a bound. -/
def Signal.AgreeUpTo (f g : Signal Exact) (bound : ℝ) : Prop :=
  ∀ t : ℝ, 0 ≤ t → t ≤ bound → f (real t) = g (real t)

namespace TimeGrid

/-- A grid as it can be made: from a range and a step, perhaps with a largest number of points. -/
inductive IsMade {α : Type} [Arithmetic α] : TimeGrid α → Prop
  | ofRange (bound step : α) : IsMade (ofRange bound step)
  | capped (bound step : α) (maxPoints : ℕ) : IsMade (capped bound step maxPoints)

variable {bound : ℝ} {step n : Exact} {g : TimeGrid Exact} {i : ℕ}

theorem of_intervals?_eq_some (h : intervals? (real bound) step = some n) :
    0 ≤ bound ∧ ∃ s : ℝ, step = real s ∧ 0 < s := by
  cases step with
  | undefined => simp [intervals?] at h
  | real s =>
    refine ⟨?_, s, rfl, ?_⟩
    · by_contra hb
      simp [intervals?_eq_none (.inl (not_le.mp hb))] at h
    · by_contra hs
      simp [intervals?_eq_none (.inr (not_lt.mp hs))] at h

theorem exists_time_ofRange (hi : i < (ofRange (real bound) step).count) :
    ∃ t, (ofRange (real bound) step).time i = real t ∧ 0 ≤ t ∧ t ≤ bound := by
  cases hn : intervals? (real bound) step with
  | none => simp [ofRange, hn] at hi
  | some n =>
    obtain ⟨hb, s, rfl, hs⟩ := of_intervals?_eq_some hn
    exact ⟨_, time_real bound s _ i, le_min (by positivity) hb, min_le_right _ _⟩

theorem exists_time_capped {maxPoints : ℕ} (hi : i < (capped (real bound) step maxPoints).count) :
    ∃ t, (capped (real bound) step maxPoints).time i = real t ∧ 0 ≤ t ∧ t ≤ bound := by
  unfold capped at hi ⊢
  split at hi
  case h_1 hn => exact exists_time_ofRange hi
  case h_2 n hn =>
    obtain ⟨hb, s, rfl, hs⟩ := of_intervals?_eq_some hn
    split_ifs at hi ⊢
    · exact exists_time_ofRange hi
    · exact ⟨_, time_real bound s _ i, le_min (by positivity) hb, min_le_right _ _⟩
    · exact exists_time_ofRange hi

theorem capped_bound (bound step : Exact) (maxPoints : ℕ) : (capped bound step maxPoints).bound = bound := by
  unfold capped
  split
  · rfl
  · split_ifs <;> rfl

/-- All times of a grid lie between zero and its bound. -/
theorem IsMade.exists_time (hg : g.IsMade) (hbound : g.bound = real bound) (hi : i < g.count) :
    ∃ t, g.time i = real t ∧ 0 ≤ t ∧ t ≤ bound := by
  cases hg with
  | ofRange b step =>
    obtain rfl : b = real bound := hbound
    exact exists_time_ofRange hi
  | capped b step maxPoints =>
    obtain rfl : b = real bound := (capped_bound b step maxPoints).symm.trans hbound
    exact exists_time_capped hi

end TimeGrid

/-- A pass reads its signal at the times of its grid alone. -/
theorem Samples.collect_congr {α : Type} [Arithmetic α] {f f' : Signal α} {g : TimeGrid α}
    {channel : Channel} {h : α}
    (hvalue : ∀ i < g.count, (start f g channel h).channelValue (g.time i) =
      (start f' g channel h).channelValue (g.time i)) :
    (start f g channel h).collect = (start f' g channel h).collect := by
  have hpoints : (List.range' 0 g.count).map (start f g channel h).at? =
      (List.range' 0 g.count).map (start f' g channel h).at? := by
    refine List.map_congr_left fun i hi => ?_
    have hi' : i < g.count := by simpa [List.mem_range'_1] using hi
    have heq := hvalue i hi'
    simp only [at?, show (start f g channel h).grid = g from rfl,
      show (start f' g channel h).grid = g from rfl, heq]
  simp only [collect, remaining, start, Nat.sub_zero] at hpoints ⊢
  rw [hpoints]

namespace Signal.AgreeUpTo

variable {f g : Signal Exact} {bound t h : ℝ} {channel : Channel} {grid : TimeGrid Exact}

theorem mono {bound' : ℝ} (hfg : f.AgreeUpTo g bound) (hle : bound' ≤ bound) : f.AgreeUpTo g bound' :=
  fun s hs hs' => hfg s hs (hs'.trans hle)

/-- Where a step back would leave the domain a derivative looks ahead, by three steps at most. -/
theorem derivatives?_eq (hfg : f.AgreeUpTo g (t + 3 * max h 0)) (ht : 0 ≤ t) :
    f.derivatives? (real t) (real h) = g.derivatives? (real t) (real h) := by
  rcases le_or_gt h 0 with hh | hh
  · simp [derivatives?, hh]
  · rw [max_eq_left hh.le] at hfg
    have here : f (real t) = g (real t) := hfg t ht (by linarith)
    have hahead : f (real (t + h)) = g (real (t + h)) := hfg _ (by linarith) (by linarith)
    by_cases hback : 0 ≤ t - h
    · have hbehind : f (real (t - h)) = g (real (t - h)) := hfg _ hback (by linarith)
      have hcentral : f.centralDifferences (real t) (real h) = g.centralDifferences (real t) (real h) := by
        simp only [centralDifferences, real_add, real_sub, here, hahead, hbehind]
      simp only [derivatives?, ofNat_eq, Nat.cast_zero, real_sub, real_le, hback, if_true, hcentral]
    · have hsecond : f (real (t + 2 * h)) = g (real (t + 2 * h)) := hfg _ (by linarith) (by linarith)
      have hthird : f (real (t + 3 * h)) = g (real (t + 3 * h)) := hfg _ (by linarith) (by linarith)
      have hforward : f.forwardDifferences (real t) (real h) = g.forwardDifferences (real t) (real h) := by
        simp only [forwardDifferences, ofNat_eq, Nat.cast_ofNat, real_add, real_mul, here, hahead, hsecond,
          hthird]
      simp only [derivatives?, ofNat_eq, Nat.cast_zero, real_sub, real_le, hback, if_false, hforward]

/-- A time within the bound is at least three steps away from where the signals may differ. -/
theorem derivatives?_of_le (hfg : f.AgreeUpTo g (bound + 3 * max h 0)) (ht : 0 ≤ t) (hle : t ≤ bound) :
    f.derivatives? (real t) (real h) = g.derivatives? (real t) (real h) :=
  (hfg.mono (by gcongr)).derivatives?_eq ht

theorem apply_of_le (hfg : f.AgreeUpTo g (bound + 3 * max h 0)) (ht : 0 ≤ t) (hle : t ≤ bound) :
    f (real t) = g (real t) :=
  hfg t ht (by linarith [le_max_right h 0])

theorem collect_eq (hfg : f.AgreeUpTo g (bound + 3 * max h 0)) (hgrid : grid.IsMade)
    (hbound : grid.bound = real bound) (channel : Channel) :
    (Samples.start f grid channel (real h)).collect = (Samples.start g grid channel (real h)).collect := by
  refine Samples.collect_congr fun i hi => ?_
  obtain ⟨t, htime, ht, hle⟩ := hgrid.exists_time hbound hi
  rw [htime]
  cases channel with
  | position => exact hfg.apply_of_le ht hle
  | velocity =>
    change (f.velocity? (real t) (real h)).getD _ = (g.velocity? (real t) (real h)).getD _
    rw [velocity?, velocity?, hfg.derivatives?_of_le ht hle]

end Signal.AgreeUpTo

end Oscillator
