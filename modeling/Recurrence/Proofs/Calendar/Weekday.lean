import Recurrence.Proofs.Expansion.Period
import Recurrence.Proofs.Order

/-!
# The equal weekdays of a month

A weekday falls on four or five days of a month, a week apart (`Weekday.daysOfMonth_eq`).  Counted
over the whole month, the one at a position is the day that `nthWeekday` computes
(`Position.pick_daysOfMonth`).

An instant lies on a chosen day of a month if its date says so: `Instant.day_mem_dayOfMonth_iff` for
a day given by its number, `Instant.day_eq_nthWeekday_iff` for one of the equal weekdays.
-/

namespace Recurrence

namespace Weekday

theorem sinceMonday_injective {v w : Weekday} (h : v.sinceMonday = w.sinceMonday) : v = w := by
  cases v <;> cases w <;> first | rfl | exact absurd h (by decide)

theorem mem_week (w : Weekday) : w ∈ week := by
  cases w <;> decide

theorem ofDay_eq_iff {n : Nat} {w : Weekday} : ofDay n = w ↔ n % 7 = w.sinceMonday := by
  rw [← sinceMonday_ofDay]
  exact ⟨congrArg sinceMonday, sinceMonday_injective⟩

/-- The days of a month that fall on the weekday, in ascending order. -/
def daysOfMonth (w : Weekday) (year month : Nat) : List Nat :=
  (List.range' 1 (daysInMonth year month)).filter fun d =>
    decide (ofDay (firstOfMonth year month + (d - 1)) = w)

theorem mem_daysOfMonth {w : Weekday} {year month d : Nat} :
    d ∈ w.daysOfMonth year month ↔
      (1 ≤ d ∧ d ≤ daysInMonth year month) ∧
        (firstOfMonth year month + (d - 1)) % 7 = w.sinceMonday := by
  unfold daysOfMonth
  rw [List.mem_filter, List.mem_range'_1, decide_eq_true_iff, ofDay_eq_iff, Nat.add_comm 1,
    Nat.lt_succ_iff]

/-- The first of them is one of the first seven days, and there is a fifth if the month is long
enough. -/
theorem daysOfMonth_eq (w : Weekday) (year month : Nat) :
    let d := firstWeekday (firstOfMonth year month) w - firstOfMonth year month + 1
    w.daysOfMonth year month =
      [d, d + 7, d + 14, d + 21] ++ if d + 28 ≤ daysInMonth year month then [d + 28] else [] := by
  intro d
  have hge := daysInMonth_ge year month
  have hle := daysInMonth_le year month
  have hw := w.sinceMonday_lt
  have hd : d = (w.sinceMonday + 7 - firstOfMonth year month % 7) % 7 + 1 := by
    simp only [d, firstWeekday]
    omega
  have hsorted : (w.daysOfMonth year month).Pairwise (· < ·) :=
    List.Pairwise.filter _ List.pairwise_lt_range'
  refine eq_of_sorted Nat.lt_irrefl (fun _ _ => Nat.lt_asymm) hsorted ?_ ?_
  · split <;> simp
  · intro e
    rw [mem_daysOfMonth]
    split <;> simp <;> omega

example : thursday.daysOfMonth 2024 2 = [1, 8, 15, 22, 29] := by decide

end Weekday

namespace Position

/-- The element of a list at the position. -/
def pick {α : Type} (p : Position) (l : List α) : Option α :=
  match p with
  | first => l[0]?
  | second => l[1]?
  | third => l[2]?
  | fourth => l[3]?
  | last => l.getLast?

/-- **The day that is computed is the one that counting finds.** -/
theorem pick_daysOfMonth (p : Position) (w : Weekday) (year month : Nat) :
    p.pick (w.daysOfMonth year month) =
      some (nthWeekday year month p w - firstOfMonth year month + 1) := by
  have hfirst := (firstWeekday_bounds (firstOfMonth year month) w).1
  have hshift (k : Nat) : firstWeekday (firstOfMonth year month) w - firstOfMonth year month + 1 + k =
      firstWeekday (firstOfMonth year month) w + k - firstOfMonth year month + 1 := by
    omega
  rw [Weekday.daysOfMonth_eq]
  simp only [hshift]
  cases p with
  | last =>
    have hfifth : firstWeekday (firstOfMonth year month) w + 28 - firstOfMonth year month + 1 ≤
        daysInMonth year month ↔
          firstWeekday (firstOfMonth year month) w + 28 <
            firstOfMonth year month + daysInMonth year month := by
      omega
    simp only [nthWeekday, hfifth]
    split <;> rfl
  | _ => rfl

end Position

/-! ## Instants on a chosen day of a month -/

/-- The date is the one at a position among the equal weekdays of its month. -/
def Date.IsNth (d : Date) (p : Position) (w : Weekday) : Prop :=
  p.pick (w.daysOfMonth d.year d.month) = some d.day

instance (d : Date) (p : Position) (w : Weekday) : Decidable (d.IsNth p w) :=
  inferInstanceAs (Decidable (_ = _))

namespace Instant

variable {t : Instant} {year month : Nat}

theorem day_eq_firstOfMonth_add (t : Instant) :
    t.day = firstOfMonth t.date.year t.date.month + (t.date.day - 1) :=
  t.toDay_date.symm

theorem day_mem_dayOfMonth_iff {day : Nat} (hy : 1 ≤ year) (hm : 1 ≤ month ∧ month ≤ 12)
    (hd : 1 ≤ day) :
    t.day ∈ dayOfMonth year month day ↔
      t.date.year = year ∧ t.date.month = month ∧ t.date.day = day := by
  rw [mem_dayOfMonth]
  constructor
  · rintro ⟨hle, ht⟩
    obtain ⟨hyear, hmonth, hday⟩ :=
      date_of_firstOfMonth hy hm (show day - 1 < daysInMonth year month by omega) ht
    exact ⟨hyear, hmonth, by omega⟩
  · rintro ⟨rfl, rfl, rfl⟩
    exact ⟨t.date.day_le, t.day_eq_firstOfMonth_add⟩

theorem day_eq_nthWeekday_iff {p : Position} {w : Weekday} (hy : 1 ≤ year)
    (hm : 1 ≤ month ∧ month ≤ 12) :
    t.day = nthWeekday year month p w ↔
      t.date.year = year ∧ t.date.month = month ∧ t.date.IsNth p w := by
  obtain ⟨hge, hlt⟩ := nthWeekday_bounds year month p w
  have hpick := p.pick_daysOfMonth w year month
  constructor
  · intro ht
    obtain ⟨hyear, hmonth, hday⟩ := date_of_firstOfMonth hy hm
      (show nthWeekday year month p w - firstOfMonth year month < daysInMonth year month by omega)
      (show t.day = _ by omega)
    refine ⟨hyear, hmonth, ?_⟩
    unfold Date.IsNth
    rw [hyear, hmonth, hday]
    exact hpick
  · rintro ⟨rfl, rfl, hnth⟩
    have hday := Option.some.inj (hnth.symm.trans hpick)
    have ht := t.day_eq_firstOfMonth_add
    omega

end Instant

end Recurrence
