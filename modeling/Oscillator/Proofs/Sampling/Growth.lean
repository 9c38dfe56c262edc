import Mathlib.Data.List.Intervals
import Oscillator.Proofs.Sampling.Reading
import Oscillator.Sampling.Keyframes

/-! # Growing curves

Every frame of a growing curve is sampled on a grid with an end of its own. Before their ends these grids
have the same points, the whole steps; the end itself may be a point of one frame and of no other. So what a
frame shows before its end is shown by all that follow, and the last frame is the whole curve.
-/
namespace Oscillator

open Exact

namespace TimeGrid

variable {bound step cutoff : ℝ}

/-- The step stays as it is where the points are few enough. -/
theorem capped_eq_ofRange (hb : 0 ≤ bound) (hs : 0 < step) {maxPoints : ℕ}
    (hfew : maxPoints = 0 ∨ ⌊bound / step + 1e-9⌋ + 1 ≤ maxPoints) :
    capped (real bound) (real step) maxPoints = ofRange (real bound) (real step) := by
  obtain ⟨n, hn⟩ := exists_steps hb hs
  rw [hn] at hfew
  have hfew : maxPoints = 0 ∨ n + 1 ≤ maxPoints := by exact_mod_cast hfew
  rw [capped, intervals?_real hb hs hn]
  exact if_pos (hfew.imp_right points_le_iff.mpr)

/-- The finite values of a function at the whole steps before a time. -/
noncomputable def wholeSteps (step cutoff : ℝ) (value : Exact → Exact) : List (Sample Exact) :=
  ((List.range (min ⌈cutoff / step⌉₊ maxCount)).map fun (i : ℕ) =>
    Sample.mk (real (i * step)) (value (real (i * step)))).filter fun p => Arithmetic.isFinite p.value

theorem filter_range_lt (n m : ℕ) : (List.range n).filter (· < m) = List.range (min n m) := by
  rw [← List.Ico.zero_bot, ← List.Ico.zero_bot, List.Ico.filter_lt]

/-- What a grid shows before a time in its range does not depend on where the range ends. -/
theorem filter_finiteSamples (hb : 0 ≤ bound) (hs : 0 < step) (hc : cutoff ≤ bound)
    (value : Exact → Exact) :
    ((ofRange (real bound) (real step)).finiteSamples value).filter (·.time < real cutoff) =
      wholeSteps step cutoff value := by
  obtain ⟨n, hn⟩ := exists_steps hb hs
  have hbefore (i : ℕ) : min (i * step) bound < cutoff ↔ i < ⌈cutoff / step⌉₊ := by
    rw [Nat.lt_ceil, lt_div_iff₀ hs, min_lt_iff, or_iff_left hc.not_gt]
  have hsteps : ⌈cutoff / step⌉₊ ≤ n + 1 := by
    rw [Nat.ceil_le]
    have hcut : cutoff / step ≤ bound / step := by gcongr
    have hlt := (Int.floor_eq_iff.mp hn).2
    push_cast at hlt ⊢
    linarith
  have hcount : min (min (n + 1) maxCount) ⌈cutoff / step⌉₊ = min ⌈cutoff / step⌉₊ maxCount := by omega
  rw [ofRange_counted hb hs hn, finiteSamples, List.filter_comm, List.filter_map, wholeSteps, ← hcount,
    ← filter_range_lt (min (n + 1) maxCount)]
  congr 1
  simp only [Function.comp_def, time_real, real_lt, hbefore]
  refine List.map_congr_left fun i hi => ?_
  have hi : i < ⌈cutoff / step⌉₊ := by simpa using (List.mem_filter.mp hi).2
  have hstep : i * step < cutoff := (lt_div_iff₀ hs).mp (Nat.lt_ceil.mp hi)
  rw [min_eq_left (hstep.le.trans hc)]

theorem mem_finiteSamples_inside (hb : 0 ≤ bound) (hs : 0 < step) {value : Exact → Exact}
    {p : Sample Exact} (hp : p ∈ (ofRange (real bound) (real step)).finiteSamples value) :
    real 0 ≤ p.time ∧ p.time ≤ real bound := by
  obtain ⟨i, -, rfl⟩ := List.mem_map.mp (List.mem_filter.mp hp).1
  exact time_inside hb hs _ i

end TimeGrid

namespace Keyframes

section

variable {α : Type} [Arithmetic α] {k : Keyframes α}

theorem next_of_lt (h : k.frames < k.index) : k.next = (none, k) := if_pos (.inr h)

theorem next_of_le (hf : k.frames ≠ 0) (h : k.index ≤ k.frames) :
    k.next = (some (k.frame k.index), { k with index := k.index + 1 }) :=
  if_neg (not_or.mpr ⟨hf, Nat.not_lt.mpr h⟩)

/-- A frame is given out for each part that is left, and one more. -/
theorem collect_eq (k : Keyframes α) (hf : k.frames ≠ 0) :
    k.collect = (List.range' k.index (k.frames + 1 - k.index)).map k.frame := by
  fun_induction collect k with
  | case1 k k' hnext =>
    have hend : k.frames + 1 - k.index = 0 := by
      by_contra hleft
      rw [next_of_le hf (by omega)] at hnext
      cases hnext
    rw [hend]
    rfl
  | case2 k frame k' hnext ih =>
    have hleft : k.index ≤ k.frames := by
      by_contra hend
      rw [next_of_lt (by omega)] at hnext
      cases hnext
    rw [next_of_le hf hleft] at hnext
    cases hnext
    rw [ih hf, Nat.add_sub_add_right, Nat.succ_sub hleft, List.range'_succ]
    rfl

theorem collect_of_start (hf : k.frames ≠ 0) (hi : k.index = 0) :
    k.collect = (List.range (k.frames + 1)).map k.frame := by
  rw [collect_eq k hf, hi, List.range_eq_range', Nat.sub_zero]

theorem getElem?_collect_eq_some_iff (hf : k.frames ≠ 0) (hi : k.index = 0) {i : ℕ}
    {a : List (Sample α)} : k.collect[i]? = some a ↔ i ≤ k.frames ∧ k.frame i = a := by
  rw [collect_of_start hf hi, List.getElem?_map, Option.map_eq_some_iff]
  simp [List.getElem?_eq_some_iff]

/-- What all frames show. -/
def value (k : Keyframes α) : α → α :=
  (Samples.start k.signal (.ofRange k.horizon k.step) k.channel k.derivativeStep).channelValue

theorem frame_eq (k : Keyframes α) (i : ℕ) :
    k.frame i = (TimeGrid.capped (k.horizon * (i : α) / (k.frames : α)) k.step k.maxPoints).finiteSamples
      k.value :=
  (Samples.collect_eq_finiteSamples ..).1

end

variable {k : Keyframes Exact} {horizon step : ℝ} {i : ℕ}

/-- The points are few enough for the whole curve, and so for each of its parts. -/
theorem frame_real (hh : k.horizon = real horizon) (hs : k.step = real step) (hpos : 0 ≤ horizon)
    (hstep : 0 < step) (hm : k.maxPoints = 0 ∨ ⌊horizon / step + 1e-9⌋ + 1 ≤ k.maxPoints)
    (hf : k.frames ≠ 0) (hi : i ≤ k.frames) :
    k.frame i = (TimeGrid.ofRange (real (i * horizon / k.frames)) (real step)).finiteSamples k.value := by
  have hf' : 0 < (k.frames : ℝ) := Nat.cast_pos.mpr (Nat.pos_of_ne_zero hf)
  have hpart : i * horizon / k.frames ≤ horizon := by
    rw [div_le_iff₀ hf', mul_comm]
    gcongr
  have hfew : k.maxPoints = 0 ∨ ⌊i * horizon / k.frames / step + 1e-9⌋ + 1 ≤ (k.maxPoints : ℤ) := by
    refine hm.imp_right fun hm => le_trans ?_ hm
    gcongr
  rw [frame_eq, hh, hs, natCast_eq, natCast_eq, real_mul, real_div hf'.ne', mul_comm horizon,
    TimeGrid.capped_eq_ofRange (by positivity) hstep hfew]

end Keyframes

/-- A curve that grows in parts is shown in one frame more than it has parts. What a frame shows before its
end, all later frames show in the same way, and no frame goes beyond its end. The last one has the finite
points of the whole curve, as positions or as velocities. -/
theorem Signal.keyframes_grow (f : Signal Exact) (channel : Channel) (derivativeStep : Exact)
    {horizon step : ℝ} {maxPoints frames : ℕ} (hh : 0 ≤ horizon) (hs : 0 < step) (hf : 1 ≤ frames)
    (hm : maxPoints = 0 ∨ ⌊horizon / step + 1e-9⌋ + 1 ≤ maxPoints) :
    let curve := f.keyframes (real horizon) (real step) maxPoints frames channel derivativeStep
    let reached (i : ℕ) : Exact := real (i * horizon / frames)
    curve.length = frames + 1 ∧
      (∀ (i j : ℕ) (a b : List (Sample Exact)), i ≤ j → curve[i]? = some a → curve[j]? = some b →
        a.filter (·.time < reached i) = b.filter (·.time < reached i)) ∧
      (∀ (i : ℕ) (a : List (Sample Exact)), curve[i]? = some a →
        ∀ p ∈ a, real 0 ≤ p.time ∧ p.time ≤ reached i) ∧
      curve[frames]? = some (match channel with
        | .position => (TimeGrid.capped (real horizon) (real step) maxPoints).finiteSamples f
        | .velocity => (TimeGrid.capped (real horizon) (real step) maxPoints).finiteSamples fun t =>
          (f.velocity? t derivativeStep).getD Arithmetic.undefined) := by
  intro curve reached
  let k := Keyframes.start f (real horizon) (real step) maxPoints frames channel derivativeStep
  have hf0 : frames ≠ 0 := Nat.ne_of_gt hf
  have hfpos : 0 < (frames : ℝ) := Nat.cast_pos.mpr hf
  have hframe {i : ℕ} {a : List (Sample Exact)} (ha : curve[i]? = some a) :
      a = (TimeGrid.ofRange (reached i) (real step)).finiteSamples k.value := by
    obtain ⟨hi, rfl⟩ := (Keyframes.getElem?_collect_eq_some_iff (k := k) hf0 rfl).mp ha
    exact Keyframes.frame_real rfl rfl hh hs hm hf0 hi
  have hreached (i : ℕ) : 0 ≤ i * horizon / frames := by positivity
  refine ⟨?_, fun i j a b hij ha hb => ?_, fun i a ha p hp => ?_, ?_⟩
  · change k.collect.length = frames + 1
    rw [Keyframes.collect_of_start hf0 rfl, List.length_map, List.length_range]
    rfl
  · have hle : i * horizon / frames ≤ j * horizon / frames := by gcongr
    rw [hframe ha, hframe hb, TimeGrid.filter_finiteSamples (hreached i) hs le_rfl,
      TimeGrid.filter_finiteSamples (hreached j) hs hle]
  · rw [hframe ha] at hp
    exact TimeGrid.mem_finiteSamples_inside (hreached i) hs hp
  · refine (Keyframes.getElem?_collect_eq_some_iff (k := k) hf0 rfl).mpr ⟨le_rfl, ?_⟩
    have hend : real horizon * (frames : Exact) / (frames : Exact) = real horizon := by
      rw [natCast_eq, real_mul, real_div hfpos.ne', mul_div_cancel_right₀ _ hfpos.ne']
    have hlast : k.frame frames = (TimeGrid.capped (real horizon) (real step) maxPoints).finiteSamples k.value :=
      (k.frame_eq frames).trans (congrArg (fun bound => (TimeGrid.capped bound (real step) maxPoints).finiteSamples
        k.value) hend)
    exact hlast.trans (Samples.finiteSamples_channelValue ..)

/-- A signal without a value at one, on three parts that end between the points of the whole curve. -/
theorem Signal.keyframes_grow_pole :
    let curve := pole.keyframes (real 2) (real 0.5) 5 3 .position (real 0.01)
    ⌊(2 : ℝ) / 0.5 + 1e-9⌋ + 1 ≤ (5 : ℕ) ∧ curve.length = 4 ∧
      curve[3]? = some [⟨real 0, real (-1)⟩, ⟨real 0.5, real (-2)⟩, ⟨real 1.5, real 2⟩, ⟨real 2, real 1⟩] ∧
      ∃ a, curve[2]? = some a ∧ a.filter (·.time < real ((2 : ℕ) * 2 / (3 : ℕ))) =
        [⟨real 0, real (-1)⟩, ⟨real 0.5, real (-2)⟩] := by
  intro curve
  have htwo : (0 : ℝ) ≤ 2 := by norm_num
  have hhalf : (0 : ℝ) < 0.5 := by norm_num
  have hfloor : ⌊(2 : ℝ) / 0.5 + 1e-9⌋ = 4 := by
    rw [Int.floor_eq_iff]
    norm_num
  have hm : ⌊(2 : ℝ) / 0.5 + 1e-9⌋ + 1 ≤ (5 : ℕ) := by
    rw [hfloor]
    norm_num
  obtain ⟨hlength, hgrow, -, hlast⟩ :=
    Signal.keyframes_grow pole .position (real 0.01) htwo hhalf (show 1 ≤ 3 by norm_num) (.inr hm)
  have hgrid : TimeGrid.capped (real 2) (real 0.5) 5 = ⟨real 2, real 0.5, 5⟩ := by
    rw [TimeGrid.capped_eq_ofRange htwo hhalf (.inr hm), TimeGrid.ofRange_real htwo hhalf hfloor (by norm_num)]
  have hcurve : (⟨real 2, real 0.5, 5⟩ : TimeGrid Exact).finiteSamples pole =
      [⟨real 0, real (-1)⟩, ⟨real 0.5, real (-2)⟩, ⟨real 1.5, real 2⟩, ⟨real 2, real 1⟩] := by
    norm_num [TimeGrid.finiteSamples, List.range_succ, TimeGrid.time_real, pole_one, pole_real]
  have hend : curve[3]? = some _ := hlast.trans (congrArg some ((congrArg (·.finiteSamples pole) hgrid).trans hcurve))
  have hthird : curve[2]? = some (curve.get ⟨2, (show 2 < 4 by norm_num).trans_eq hlength.symm⟩) :=
    List.getElem?_eq_getElem _
  refine ⟨hm, hlength, hend, _, hthird, (hgrow 2 3 _ _ (by norm_num) hthird hend).trans ?_⟩
  norm_num [List.filter_cons]

end Oscillator
