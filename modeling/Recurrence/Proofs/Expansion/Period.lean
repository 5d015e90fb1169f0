import Recurrence.Expansion.Scan
import Recurrence.Proofs.Calendar.Instant

/-!
# Periods in a row

Each period keeps its days between its own first day and that of the next (`Pattern.periodDays_bounds`),
so the days of all periods, one after the other, are in ascending order (`Rule.days_sorted`).

A series may be anchored again at one of its own days.  Counted from there, the periods are the same
ones under lower numbers (`Pattern.periodDays_reanchor`, `Pattern.periodCount_reanchor`); so the days
from the new anchor are the old ones without those of the periods before
(`Rule.days_eq_append`).
-/

namespace Recurrence

open Pattern

/-! ## The days of one month -/

theorem mem_dayOfMonth {year month day n : Nat} :
    n ∈ dayOfMonth year month day ↔
      day ≤ daysInMonth year month ∧ n = firstOfMonth year month + (day - 1) := by
  unfold dayOfMonth
  split
  · rename_i h
    simp [h]
  · rename_i h
    simp [h]

theorem firstWeekday_bounds (n : Nat) (w : Weekday) : n ≤ firstWeekday n w ∧ firstWeekday n w < n + 7 := by
  have hmod : (w.sinceMonday + 7 - n % 7) % 7 < 7 := Nat.mod_lt _ (by decide)
  unfold firstWeekday
  omega

theorem nthWeekday_bounds (year month : Nat) (p : Position) (w : Weekday) :
    firstOfMonth year month ≤ nthWeekday year month p w ∧
      nthWeekday year month p w < firstOfMonth year month + daysInMonth year month := by
  have hge := daysInMonth_ge year month
  have hfirst := firstWeekday_bounds (firstOfMonth year month) w
  cases p with
  | last =>
    simp only [nthWeekday]
    split <;> omega
  | _ =>
    simp only [nthWeekday]
    omega

namespace Pattern

/-! ## The first day of a period -/

/-- The number of the first day of the `k`-th period. -/
def periodStart (p : Pattern) (interval anchorDay : Nat) (anchor : Date) (k : Nat) : Nat :=
  match p with
  | daily => anchorDay + k * interval
  | weekly _ => anchorDay - anchorDay % 7 + k * interval * 7
  | monthly _ => firstOfIndex (monthIndex anchor.year anchor.month + k * interval)
  | yearly _ => daysBeforeYear (anchor.year + k * interval)

theorem twelve_le_monthIndex (d : Date) (n : Nat) : 12 ≤ monthIndex d.year d.month + n := by
  have hy := d.year_pos
  unfold monthIndex
  omega

theorem periodStart_mono (p : Pattern) (interval anchorDay : Nat) (anchor : Date) {k l : Nat}
    (h : k ≤ l) :
    p.periodStart interval anchorDay anchor k ≤ p.periodStart interval anchorDay anchor l := by
  have hmul : k * interval ≤ l * interval := Nat.mul_le_mul_right interval h
  cases p with
  | daily => exact Nat.add_le_add_left hmul _
  | weekly _ => exact Nat.add_le_add_left (Nat.mul_le_mul_right 7 hmul) _
  | monthly _ =>
    exact firstOfIndex_mono (twelve_le_monthIndex anchor _) (Nat.add_le_add_left hmul _)
  | yearly _ => exact daysBeforeYear_mono (Nat.add_le_add_left hmul _)

/-! ## The days of a period lie in it -/

theorem weekOffsets_lt {days : Option DaySet} {anchorDay o : Nat}
    (h : o ∈ weekOffsets days anchorDay) : o < 7 := by
  cases days with
  | some s =>
    obtain ⟨w, -, rfl⟩ := List.mem_map.1 h
    exact w.sinceMonday_lt
  | none =>
    rw [List.mem_singleton.1 h]
    exact Nat.mod_lt _ (by decide)

theorem weekOffsets_sorted (days : Option DaySet) (anchorDay : Nat) :
    (weekOffsets days anchorDay).Pairwise (· < ·) := by
  cases days with
  | some s =>
    have hweek : Weekday.week.Pairwise (fun v w => v.sinceMonday < w.sinceMonday) := by decide
    exact List.pairwise_map.2 (hweek.filter _)
  | none => exact List.pairwise_singleton _ _

/-- A day that a monthly pattern chooses, as a day of its month. -/
theorem mem_periodDays_monthly {mode : Option MonthlyMode} {interval anchorDay : Nat} {anchor : Date}
    {k n : Nat} (h : n ∈ (monthly mode).periodDays interval anchorDay anchor k) :
    let i := monthIndex anchor.year anchor.month + k * interval
    ∃ j < daysInMonth (i / 12) (i % 12 + 1),
      n = firstOfIndex i + j ∧ (mode = none → j + 1 = anchor.day) := by
  rcases mode with _ | ⟨d | ⟨p, w⟩⟩
  · obtain ⟨hle, hn⟩ := mem_dayOfMonth.1 h
    have hpos := anchor.day_pos
    exact ⟨anchor.day - 1, by omega, hn, fun _ => by omega⟩
  · obtain ⟨hle, hn⟩ := mem_dayOfMonth.1 h
    have hpos := d.2.1
    exact ⟨d.1 - 1, by omega, hn, nofun⟩
  · have hb := nthWeekday_bounds ((monthIndex anchor.year anchor.month + k * interval) / 12)
      ((monthIndex anchor.year anchor.month + k * interval) % 12 + 1) p w
    have hn := List.mem_singleton.1 h
    refine ⟨n - firstOfIndex (monthIndex anchor.year anchor.month + k * interval), ?_, ?_, nofun⟩
    · unfold firstOfIndex
      omega
    · unfold firstOfIndex
      omega

/-- A day that a yearly pattern chooses, as a day of a month of its year. -/
theorem mem_periodDays_yearly {mode : Option YearlyMode} {interval anchorDay : Nat} {anchor : Date}
    {k n : Nat} (h : n ∈ (yearly mode).periodDays interval anchorDay anchor k) :
    let year := anchor.year + k * interval
    ∃ month, (1 ≤ month ∧ month ≤ 12) ∧ ∃ j < daysInMonth year month,
      n = firstOfMonth year month + j ∧
        (mode = none → month = anchor.month ∧ j + 1 = anchor.day) := by
  rcases mode with _ | ⟨⟨m, d⟩ | ⟨p, w, m⟩⟩
  · obtain ⟨hle, hn⟩ := mem_dayOfMonth.1 h
    have hpos := anchor.day_pos
    exact ⟨anchor.month, ⟨anchor.month_pos, anchor.month_le⟩, anchor.day - 1, by omega, hn,
      fun _ => ⟨rfl, by omega⟩⟩
  · obtain ⟨hle, hn⟩ := mem_dayOfMonth.1 h
    have hpos := d.2.1
    exact ⟨m.1, m.2, d.1 - 1, by omega, hn, nofun⟩
  · have hb := nthWeekday_bounds (anchor.year + k * interval) m.1 p w
    have hn := List.mem_singleton.1 h
    exact ⟨m.1, m.2, n - firstOfMonth (anchor.year + k * interval) m.1, by omega, by omega, nofun⟩

/-- **The days of a period come before the first day of the next.** -/
theorem periodDays_bounds {p : Pattern} {interval anchorDay : Nat} {anchor : Date} {k n : Nat}
    (hi : 0 < interval) (h : n ∈ p.periodDays interval anchorDay anchor k) :
    p.periodStart interval anchorDay anchor k ≤ n ∧
      n < p.periodStart interval anchorDay anchor (k + 1) := by
  have hsucc : (k + 1) * interval = k * interval + interval := Nat.succ_mul k interval
  cases p with
  | daily =>
    have hn := List.mem_singleton.1 h
    simp only [periodStart, hsucc]
    omega
  | weekly days =>
    obtain ⟨o, ho, hn⟩ := List.mem_map.1 h
    have hlt := weekOffsets_lt ho
    have hseven : (k + 1) * interval * 7 = k * interval * 7 + interval * 7 := by
      rw [hsucc, Nat.add_mul]
    simp only [periodStart, hseven]
    omega
  | monthly mode =>
    obtain ⟨j, hj, hn, -⟩ := mem_periodDays_monthly h
    have hnext := firstOfIndex_add_daysInMonth_le (twelve_le_monthIndex anchor (k * interval))
      (show _ < monthIndex anchor.year anchor.month + (k + 1) * interval by omega)
    simp only [periodStart]
    omega
  | yearly mode =>
    obtain ⟨month, hm, j, hj, hn, -⟩ := mem_periodDays_yearly h
    have hy := anchor.year_pos
    have hyear := firstOfMonth_add_daysInMonth_le
      (show 1 ≤ anchor.year + k * interval by omega) hm
    have hnext := daysBeforeYear_mono
      (show anchor.year + k * interval + 1 ≤ anchor.year + (k + 1) * interval by omega)
    have hfirst : daysBeforeYear (anchor.year + k * interval) ≤
        firstOfMonth (anchor.year + k * interval) month := Nat.le_add_right _ _
    simp only [periodStart]
    omega

theorem dayOfMonth_sorted (year month day : Nat) : (dayOfMonth year month day).Pairwise (· < ·) := by
  unfold dayOfMonth
  split
  · exact List.pairwise_singleton _ _
  · exact List.Pairwise.nil

theorem periodDays_sorted (p : Pattern) (interval anchorDay : Nat) (anchor : Date) (k : Nat) :
    (p.periodDays interval anchorDay anchor k).Pairwise (· < ·) := by
  rcases p with _ | days | (_ | ⟨d | ⟨p, w⟩⟩) | (_ | ⟨⟨m, d⟩ | ⟨p, w, m⟩⟩)
  case weekly =>
    refine List.pairwise_map.2 ((weekOffsets_sorted days anchorDay).imp ?_)
    intro o o' h
    exact Nat.add_lt_add_left h _
  all_goals first
    | exact List.pairwise_singleton _ _
    | exact dayOfMonth_sorted _ _ _

/-! ## The periods counted from one of the days -/

variable {interval k : Nat} {a c : Instant}

theorem monday_of_mem_weekly {days : Option DaySet}
    (h : c.day ∈ (weekly days).periodDays interval a.day a.date k) :
    c.day - c.day % 7 = a.day - a.day % 7 + k * interval * 7 := by
  obtain ⟨o, ho, hc⟩ := List.mem_map.1 h
  have hlt := weekOffsets_lt ho
  omega

/-- A day that a monthly pattern chooses lies in the month of its period, and without a mode it is the
anchor's day of that month. -/
theorem monthIndex_of_mem_monthly {mode : Option MonthlyMode}
    (h : c.day ∈ (monthly mode).periodDays interval a.day a.date k) :
    monthIndex c.date.year c.date.month = monthIndex a.date.year a.date.month + k * interval ∧
      (mode = none → c.date.day = a.date.day) := by
  obtain ⟨j, hj, hc, hnone⟩ := mem_periodDays_monthly h
  have htwelve := twelve_le_monthIndex a.date (k * interval)
  obtain ⟨hyear, hmonth, hday⟩ := Instant.date_of_firstOfMonth (by omega) (by omega) hj hc
  refine ⟨?_, fun hmode => hday.trans (hnone hmode)⟩
  rw [hyear, hmonth]
  unfold monthIndex
  omega

/-- A day that a yearly pattern chooses lies in the year of its period, and without a mode it has the
anchor's month and day. -/
theorem year_of_mem_yearly {mode : Option YearlyMode}
    (h : c.day ∈ (yearly mode).periodDays interval a.day a.date k) :
    c.date.year = a.date.year + k * interval ∧
      (mode = none → c.date.month = a.date.month ∧ c.date.day = a.date.day) := by
  obtain ⟨month, hm, j, hj, hc, hnone⟩ := mem_periodDays_yearly h
  have hpos := a.date.year_pos
  obtain ⟨hyear, hmonth, hday⟩ := Instant.date_of_firstOfMonth (by omega) hm hj hc
  refine ⟨hyear, fun hmode => ?_⟩
  obtain ⟨hsame, hsameDay⟩ := hnone hmode
  exact ⟨hmonth.trans hsame, hday.trans hsameDay⟩

/-- A day that the pattern chooses in its `k`-th period lies in the first period that is counted
from it, and takes nothing else from its anchor than the old one gave. -/
theorem periodDays_reanchor {p : Pattern} (h : c.day ∈ p.periodDays interval a.day a.date k)
    (j : Nat) :
    p.periodDays interval c.day c.date j = p.periodDays interval a.day a.date (k + j) := by
  have hadd : (k + j) * interval = k * interval + j * interval := Nat.add_mul k j interval
  cases p with
  | daily =>
    have hc := List.mem_singleton.1 h
    simp only [periodDays]
    rw [hc, hadd, Nat.add_assoc]
  | weekly days =>
    have hmonday := monday_of_mem_weekly h
    have hoffsets : weekOffsets days c.day = weekOffsets days a.day := by
      cases days with
      | some s => rfl
      | none =>
        obtain ⟨o, ho, hc⟩ := List.mem_map.1 h
        have hoa : o = a.day % 7 := List.mem_singleton.1 ho
        have hmod : c.day % 7 = a.day % 7 := by omega
        simp only [weekOffsets, hmod]
    simp only [periodDays]
    rw [hmonday, hoffsets, hadd, Nat.add_mul, Nat.add_assoc]
  | monthly mode =>
    obtain ⟨hindex, hday⟩ := monthIndex_of_mem_monthly h
    simp only [periodDays]
    rw [hindex, hadd, Nat.add_assoc]
    rcases mode with _ | ⟨d | ⟨p, w⟩⟩
    · simp only [hday rfl]
    · rfl
    · rfl
  | yearly mode =>
    obtain ⟨hyear, hday⟩ := year_of_mem_yearly h
    simp only [periodDays]
    rw [hyear, hadd, Nat.add_assoc]
    rcases mode with _ | ⟨⟨m, d⟩ | ⟨p, w, m⟩⟩
    · simp only [hday rfl]
    · rfl
    · rfl

theorem steps_sub {x k i : Nat} (hi : 0 < i) (h : k * i ≤ x) :
    k < x / i + 1 ∧ (x - k * i) / i + 1 = x / i + 1 - k := by
  have hk : k ≤ x / i := (Nat.le_div_iff_mul_le hi).2 h
  have hdiv : (x - k * i) / i = x / i - k := by
    rw [Nat.mul_comm k i, Nat.sub_mul_div]
  omega

/-- The periods counted from a day of the `k`-th one are `k` fewer. -/
theorem periodCount_reanchor {p : Pattern} (hi : 0 < interval)
    (h : c.day ∈ p.periodDays interval a.day a.date k) :
    k < p.periodCount interval a.day a.date ∧
      p.periodCount interval c.day c.date = p.periodCount interval a.day a.date - k := by
  have hlt := c.day_lt
  cases p with
  | daily =>
    have hc := List.mem_singleton.1 h
    have hsteps := steps_sub hi (show k * interval ≤ calendarDays - 1 - a.day by omega)
    simp only [periodCount]
    rw [hc, ← Nat.sub_sub]
    exact hsteps
  | weekly days =>
    have hmonday := monday_of_mem_weekly h
    have hmul : k * interval * 7 = k * (7 * interval) := by
      rw [Nat.mul_assoc, Nat.mul_comm interval 7]
    have hsteps := steps_sub (show 0 < 7 * interval by omega)
      (show k * (7 * interval) ≤ calendarDays - 1 - (a.day - a.day % 7) by omega)
    simp only [periodCount]
    rw [hmonday, hmul, ← Nat.sub_sub]
    exact hsteps
  | monthly mode =>
    have hindex := (monthIndex_of_mem_monthly h).1
    have hle : monthIndex c.date.year c.date.month ≤ monthIndex 9999 12 := by
      have hcy := c.date.year_le
      have hcm := c.date.month_le
      unfold monthIndex
      omega
    have hsteps := steps_sub hi
      (show k * interval ≤ monthIndex 9999 12 - monthIndex a.date.year a.date.month by omega)
    simp only [periodCount]
    rw [hindex, ← Nat.sub_sub]
    exact hsteps
  | yearly mode =>
    have hyear := (year_of_mem_yearly h).1
    have hle := c.date.year_le
    have hsteps := steps_sub hi (show k * interval ≤ 9999 - a.date.year by omega)
    simp only [periodCount]
    rw [hyear, ← Nat.sub_sub]
    exact hsteps

end Pattern

/-! ## The days of a rule -/

namespace Rule

/-- The days that a rule chooses in all its periods. -/
def days (r : Rule) (anchor : Instant) : List Nat :=
  (List.range' 0 (r.pattern.periodCount r.interval.1 anchor.day anchor.date)).flatMap
    (r.pattern.periodDays r.interval.1 anchor.day anchor.date)

theorem mem_days {r : Rule} {anchor : Instant} {n : Nat} :
    n ∈ r.days anchor ↔
      ∃ k < r.pattern.periodCount r.interval.1 anchor.day anchor.date,
        n ∈ r.pattern.periodDays r.interval.1 anchor.day anchor.date k := by
  unfold days
  simp only [List.mem_flatMap, List.mem_range'_1, Nat.zero_le, true_and, Nat.zero_add]

theorem scanAll_eq_foldl (r : Rule) (anchor : Instant) (q : Scan) :
    r.scanAll anchor q = (r.days anchor).foldl q.step (.going r.ending.count? []) :=
  q.run_eq_foldl _ _ 0 _

/-- **The days of a rule are in ascending order.** -/
theorem days_sorted (r : Rule) (anchor : Instant) : (r.days anchor).Pairwise (· < ·) := by
  refine List.pairwise_flatMap.2 ⟨fun k _ => periodDays_sorted _ _ _ _ k, ?_⟩
  refine List.Pairwise.imp ?_ (List.pairwise_lt_range' (s := 0))
  intro k l hkl n hn m hm
  have hend := (periodDays_bounds r.interval.2 hn).2
  have hstart := (periodDays_bounds r.interval.2 hm).1
  have hmono := periodStart_mono r.pattern r.interval.1 anchor.day anchor.date
    (show k + 1 ≤ l from hkl)
  omega

/-- **Anchored at one of its own days, a rule keeps its days from there on.** -/
theorem days_eq_append {r : Rule} {a c : Instant} (h : c.day ∈ r.days a) :
    ∃ front, r.days a = front ++ r.days c ∧ ∀ n ∈ front, n < c.day := by
  obtain ⟨k, -, hk⟩ := List.mem_flatMap.1 h
  obtain ⟨hlt, hcount⟩ := periodCount_reanchor r.interval.2 hk
  have hrange : List.range' 0 (r.pattern.periodCount r.interval.1 a.day a.date) =
      List.range' 0 k ++ (List.range' 0 (r.pattern.periodCount r.interval.1 c.day c.date)).map
        (k + ·) := by
    rw [List.map_add_range', hcount, Nat.add_zero]
    have happend := List.range'_append_1 (s := 0) (m := k)
      (n := r.pattern.periodCount r.interval.1 a.day a.date - k)
    rw [Nat.zero_add] at happend
    rw [happend]
    congr 1
    omega
  refine ⟨(List.range' 0 k).flatMap (r.pattern.periodDays r.interval.1 a.day a.date), ?_, ?_⟩
  · unfold days
    rw [hrange, List.flatMap_append, List.flatMap_map]
    congr 2
    funext j
    exact (periodDays_reanchor hk j).symm
  · intro n hn
    obtain ⟨l, hl, hnl⟩ := List.mem_flatMap.1 hn
    have hlk : l < k := by
      have := List.mem_range'_1.1 hl
      omega
    have hend := (periodDays_bounds r.interval.2 hnl).2
    have hstart := (periodDays_bounds r.interval.2 hk).1
    have hmono := periodStart_mono r.pattern r.interval.1 a.day a.date (show l + 1 ≤ k from hlk)
    omega

end Rule

end Recurrence
