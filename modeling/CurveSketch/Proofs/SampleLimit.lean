import CurveSketch.Proofs.Sampling

/-!
# The limit on samples

`Grid.demand` is the number of points that the computed quotient asks for: one more than
there are whole steps.  A refusal reports the whole steps instead, and the limit is compared
with them after it has been rounded to a binary64 number.

* A refusal reports one point too few, as far as a word can hold the number
  (`toNat_intervals_eq_demand`).  At the border it says that there are as many points as are
  allowed.
* What decides is whether the whole steps are less than the rounded limit
  (`count_isOk_iff`).  Up to `2 ^ 53` a limit is not changed, and then it is the demand that
  decides (`count_isOk_iff_demand_le`).  Beyond, a limit that is rounded down refuses a
  demand that it allows.

`refusal_counts_steps` puts this together, and `not_forall_refusal` has a grid for either
defect.
-/

namespace CurveSketch.Grid

open Binary64

variable {g : Grid}

/-- How many points the computed quotient asks for. -/
def demand (g : Grid) : ℕ∞ :=
  if g.quotient.isFinite then ((⌊value g.quotient⌋ + 1).toNat : ℕ∞) else ⊤

/-- An acceptable grid asks for one point more than there are whole steps, or for points
without end. -/
theorem demand_cases (hdomain : g.hasDomain = true) (hstep : g.hasStep = true) :
    (∃ steps : Nat, g.quotient.isFinite = true ∧ ⌊value g.quotient⌋ = steps ∧
        g.demand = steps + 1) ∨
      g.quotient.toModel.unpack = .infinity .positive ∧ g.demand = ⊤ := by
  rcases quotient_cases hdomain hstep with ⟨hfinite, hnonneg⟩ | hinfinity
  · obtain ⟨steps, hsteps⟩ := Int.eq_ofNat_of_zero_le (Int.floor_nonneg.mpr hnonneg)
    refine Or.inl ⟨steps, hfinite, hsteps, ?_⟩
    rw [demand, if_pos hfinite, hsteps]
    rfl
  · refine Or.inr ⟨hinfinity, ?_⟩
    rw [demand, isFinite_of_infinity hinfinity]
    rfl

/-! ## The rounded limit -/

/-- The comparison that decides, as a comparison of exact numbers. -/
theorem intervals_ge_iff (h : g.quotient.isFinite = true) :
    g.intervals ≥ g.limit.toFloat ↔ value g.limit.toFloat ≤ ⌊value g.quotient⌋ := by
  obtain ⟨hfinite, hvalue⟩ := value_intervals h
  rw [← hvalue]
  exact le_iff_value (isFinite_toFloat _) hfinite

/-! ## What the count answers -/

/-- A grid is accepted if the whole steps are less than the rounded limit. -/
theorem count_isOk_iff (hdomain : g.hasDomain = true) (hstep : g.hasStep = true) :
    (∃ n, g.count = .ok n) ↔
      g.quotient.isFinite = true ∧ ⌊value g.quotient⌋ < value g.limit.toFloat := by
  rcases count_cases g with ⟨hfails, _⟩ | ⟨_, hfails, _⟩ | ⟨_, _, hlimit, hcount⟩ |
    ⟨_, _, hlimit, hcount⟩
  · rw [hdomain] at hfails
    cases hfails
  · rw [hstep] at hfails
    cases hfails
  · rw [hcount]
    refine iff_of_false nofun fun ⟨hfinite, hlt⟩ => ?_
    exact absurd ((intervals_ge_iff hfinite).mp hlimit) (not_le.mpr hlt)
  · obtain ⟨⟨hfinite, _⟩, _⟩ := floor_lt_limit (quotient_cases hdomain hstep) hlimit
    refine iff_of_true ⟨_, hcount⟩ ⟨hfinite, ?_⟩
    rwa [intervals_ge_iff hfinite, not_le] at hlimit

/-- Up to `2 ^ 53` a grid is accepted if its demand is within the limit. -/
theorem count_isOk_iff_demand_le (hdomain : g.hasDomain = true) (hstep : g.hasStep = true)
    (hlimit : g.limit.toNat ≤ 2 ^ 53) :
    (∃ n, g.count = .ok n) ↔ g.demand ≤ g.limit.toNat := by
  rw [count_isOk_iff hdomain hstep, value_toFloat hlimit]
  rcases demand_cases hdomain hstep with ⟨steps, hfinite, hsteps, hdemand⟩ | ⟨hinfinity, hdemand⟩
  · rw [and_iff_right hfinite, hsteps, hdemand]
    norm_cast
  · rw [hdemand]
    refine iff_of_false (fun h => ?_) (by simp)
    have hfinite := h.1
    rw [isFinite_of_infinity hinfinity] at hfinite
    cases hfinite

/-- An accepted grid gives the points that it asks for. -/
theorem toNat_eq_demand {n : UInt64} (h : g.count = .ok n) : (n.toNat : ℕ∞) = g.demand := by
  obtain ⟨hfinite, -, hfloor, -⟩ := count_of_ok h
  rw [demand, if_pos hfinite, ← hfloor]
  rfl

/-- What a refusal says, and of which grids. -/
theorem refused {required limit : UInt64}
    (h : g.count = .error (.tooManySamples required limit)) :
    g.hasDomain = true ∧ g.hasStep = true ∧ required = g.intervals.toUInt64 ∧ limit = g.limit ∧
      ¬∃ n, g.count = .ok n := by
  have hrefused : ¬∃ n, g.count = .ok n := by
    rw [h]
    exact nofun
  rcases count_cases g with ⟨_, hcount⟩ | ⟨_, _, hcount⟩ | ⟨hdomain, hstep, _, hcount⟩ |
    ⟨_, _, _, hcount⟩ <;> rw [hcount] at h <;> cases h
  exact ⟨hdomain, hstep, rfl, rfl, hrefused⟩

/-- The number that is reported is one less than the demand, as far as a word can hold it. -/
theorem toNat_intervals_eq_demand (hdomain : g.hasDomain = true) (hstep : g.hasStep = true) :
    (g.intervals.toUInt64.toNat : ℕ∞) = min (g.demand - 1) (2 ^ 64 - 1 : Nat) := by
  rcases demand_cases hdomain hstep with ⟨steps, hfinite, hsteps, hdemand⟩ | ⟨hinfinity, hdemand⟩
  · have hnonneg : 0 ≤ value g.quotient := by
      rw [← Int.floor_nonneg, hsteps]
      exact Int.natCast_nonneg steps
    rw [toNat_intervals hfinite hnonneg, hsteps, hdemand, Int.toNat_natCast]
    norm_cast
  · rw [intervals_of_infinity hinfinity, toNat_toUInt64_infinity hinfinity, hdemand]
    rfl

/-- A report of one less than the demand reaches the limit, and passes it except at the border. -/
theorem limit_le_of_reported {limit reported : Nat} {demand : ℕ∞} (hword : limit ≤ 2 ^ 53)
    (hlt : limit < demand)
    (hreported : (reported : ℕ∞) = min (demand - 1) (2 ^ 64 - 1 : Nat)) :
    limit ≤ reported ∧ (limit < reported ↔ demand ≠ limit + 1) := by
  induction demand using ENat.recTopCoe with
  | top =>
    have hall : reported = 2 ^ 64 - 1 := by
      rw [ENat.top_sub_one, min_eq_right le_top] at hreported
      exact_mod_cast hreported
    have hborder : (⊤ : ℕ∞) ≠ limit + 1 := nofun
    exact ⟨by omega, iff_of_true (by omega) hborder⟩
  | coe demand =>
    have hlt : limit < demand := by exact_mod_cast hlt
    rw [← Nat.cast_one, ← ENat.natCast_sub, ← Nat.mono_cast.map_min, Nat.cast_inj] at hreported
    have hborder : (demand : ℕ∞) ≠ limit + 1 ↔ demand ≠ limit + 1 := by norm_cast
    rw [hborder]
    omega

/-- A refusal reports one point less than the grid asks for, so at the border it reports as
many as are allowed.  Up to `2 ^ 53` a grid is refused exactly if it asks for too many. -/
theorem refusal_counts_steps (g : Grid) :
    (∀ required limit, g.count = .error (.tooManySamples required limit) →
        limit = g.limit ∧ (required.toNat : ℕ∞) = min (g.demand - 1) (2 ^ 64 - 1 : Nat) ∧
          (g.limit.toNat ≤ 2 ^ 53 → g.limit.toNat < g.demand ∧ g.limit.toNat ≤ required.toNat ∧
            (g.limit.toNat < required.toNat ↔ g.demand ≠ g.limit.toNat + 1))) ∧
      (g.hasDomain = true → g.hasStep = true →
        ((∃ n, g.count = .ok n) ↔
          g.quotient.isFinite = true ∧ ⌊value g.quotient⌋ < value g.limit.toFloat) ∧
        (g.limit.toNat ≤ 2 ^ 53 → g.demand ≤ g.limit.toNat →
          ∃ n, g.count = .ok n ∧ (n.toNat : ℕ∞) = g.demand)) := by
  refine ⟨fun required limit h => ?_, fun hdomain hstep =>
    ⟨count_isOk_iff hdomain hstep, fun hlimit hdemand => ?_⟩⟩
  · obtain ⟨hdomain, hstep, rfl, rfl, hrefused⟩ := refused h
    have hrequired := toNat_intervals_eq_demand hdomain hstep
    refine ⟨rfl, hrequired, fun hlimit => ?_⟩
    rw [count_isOk_iff_demand_le hdomain hstep hlimit, not_le] at hrefused
    exact ⟨hrefused, limit_le_of_reported hlimit hrefused hrequired⟩
  · obtain ⟨n, hn⟩ := (count_isOk_iff_demand_le hdomain hstep hlimit).mpr hdemand
    exact ⟨n, hn, toNat_eq_demand hn⟩

/-- Four quarters ask for five points, and a refusal reports four. -/
theorem refusal_counts_steps_quarters :
    ((4 : UInt64).toNat : ℕ∞) = min ((quarters 4).demand - 1) (2 ^ 64 - 1 : Nat) ∧
      ((quarters 4).limit.toNat < (quarters 4).demand ∧
        (quarters 4).limit.toNat ≤ (4 : UInt64).toNat) ∧
      ∃ n, (quarters 5).count = .ok n ∧ (n.toNat : ℕ∞) = (quarters 5).demand := by
  obtain ⟨-, hreported, hborder⟩ := (refusal_counts_steps (quarters 4)).1 4 4 rfl
  have hdemand : ((5 : UInt64).toNat : ℕ∞) = (quarters 5).demand := toNat_eq_demand rfl
  have hlimit : (quarters 5).limit.toNat ≤ 2 ^ 53 := by decide
  exact ⟨hreported, ⟨(hborder (by decide)).1, (hborder (by decide)).2.1⟩,
    ((refusal_counts_steps (quarters 5)).2 rfl rfl).2 hlimit hdemand.symm.le⟩

/-- The unit steps from zero to `2 ^ 53`. -/
def wide (limit : UInt64) : Grid :=
  { low := 0, high := 9007199254740992, step := 1, limit }

theorem value_quotient_wide (limit : UInt64) :
    (wide limit).quotient.isFinite = true ∧ value (wide limit).quotient = (2 ^ 53 : Int) := by
  have hfinite : Float.isFinite ((9007199254740992 - 0) / 1) = true := by decide +kernel
  have hvalue : value ((9007199254740992 - 0) / 1) = (2 ^ 53 : Int) := by decide +kernel
  exact ⟨hfinite, hvalue⟩

theorem demand_wide (limit : UInt64) : (wide limit).demand = (2 ^ 53 + 1 : Nat) := by
  obtain ⟨hfinite, hvalue⟩ := value_quotient_wide limit
  rw [demand, if_pos hfinite, hvalue, Int.floor_intCast]
  rfl

/-- A refusal may report as many points as are allowed, and a demand that is within the limit
may be refused. -/
theorem not_forall_refusal :
    (¬∀ g required limit, count g = .error (.tooManySamples required limit) →
        limit.toNat < required.toNat) ∧
      ¬∀ g : Grid, g.hasDomain = true → g.hasStep = true → g.demand ≤ g.limit.toNat →
        ∃ n, g.count = .ok n := by
  constructor
  · intro h
    exact absurd (h (quarters 4) 4 4 rfl) (by decide)
  · intro h
    have hdemand : (wide 9007199254740993).demand ≤ (wide 9007199254740993).limit.toNat := by
      rw [demand_wide]
      exact le_rfl
    have hlimit : value (9007199254740993 : UInt64).toFloat = 2 ^ 53 := by decide +kernel
    obtain ⟨-, hlt⟩ := (count_isOk_iff rfl rfl).mp (h (wide 9007199254740993) rfl rfl hdemand)
    rw [(value_quotient_wide _).2, Int.floor_intCast] at hlt
    exact absurd (hlt.trans_eq hlimit) (by norm_num)

end CurveSketch.Grid
