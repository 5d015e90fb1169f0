/-!
# Sorted lists

A list that a strict order sorts is determined by its members (`eq_of_sorted`), and the least of them
comes first (`head?_of_sorted`).  A condition that only fails from some point on keeps a prefix of it
(`takeWhile_eq_filter`), one that only holds from some point on the rest of it (`dropWhile_eq_filter`).
Its first elements are those with few elements before them (`take_eq_filter`).
-/

namespace Recurrence

variable {α : Type}

/-- **A sorted list is determined by its members.** -/
theorem eq_of_sorted {R : α → α → Prop} (irrefl : ∀ a, ¬R a a) (asymm : ∀ a b, R a b → ¬R b a)
    {l₁ l₂ : List α} (h₁ : l₁.Pairwise R) (h₂ : l₂.Pairwise R) (h : ∀ a, a ∈ l₁ ↔ a ∈ l₂) :
    l₁ = l₂ := by
  have ne_of_rel : ∀ {a b : α}, R a b → a ≠ b := by
    rintro a b hab rfl
    exact irrefl a hab
  have hperm : l₁.Perm l₂ := (List.perm_ext_iff_of_nodup (h₁.imp ne_of_rel) (h₂.imp ne_of_rel)).2 h
  exact hperm.eq_of_pairwise (fun a b _ _ hab hba => absurd hba (asymm a b hab)) h₁ h₂

/-- The least element of a sorted list is its first. -/
theorem head?_of_sorted {R : α → α → Prop} {a : α} {l : List α} (h : l.Pairwise R) (ha : a ∈ l)
    (hleast : ∀ b ∈ l, ¬R b a) : l.head? = some a := by
  cases l with
  | nil => exact absurd ha List.not_mem_nil
  | cons b l =>
    rcases List.mem_cons.1 ha with rfl | ha
    · rfl
    · exact absurd ((List.pairwise_cons.1 h).1 a ha) (hleast b List.mem_cons_self)

theorem takeWhile_eq_filter {R : α → α → Prop} {p : α → Bool} {l : List α} (h : l.Pairwise R)
    (hp : ∀ a b, R a b → p b = true → p a = true) : l.takeWhile p = l.filter p := by
  induction l with
  | nil => rfl
  | cons a l ih =>
    obtain ⟨ha, hl⟩ := List.pairwise_cons.1 h
    by_cases hpa : p a = true
    · rw [List.takeWhile_cons_of_pos hpa, List.filter_cons_of_pos hpa, ih hl]
    · have hnil : l.filter p = [] := by
        apply List.filter_eq_nil_iff.2
        intro b hb hpb
        exact hpa (hp a b (ha b hb) hpb)
      rw [List.takeWhile_cons_of_neg hpa, List.filter_cons_of_neg hpa, hnil]

theorem dropWhile_eq_filter {R : α → α → Prop} {p : α → Bool} {l : List α} (h : l.Pairwise R)
    (hp : ∀ a b, R a b → p a = true → p b = true) : (l.dropWhile fun a => !p a) = l.filter p := by
  induction l with
  | nil => rfl
  | cons a l ih =>
    obtain ⟨ha, hl⟩ := List.pairwise_cons.1 h
    by_cases hpa : p a = true
    · rw [List.dropWhile_cons_of_neg (by rw [hpa]; decide), List.filter_cons_of_pos hpa,
        List.filter_eq_self.2 fun b hb => hp a b (ha b hb) hpa]
    · rw [List.dropWhile_cons_of_pos (by rw [Bool.eq_false_iff.2 hpa]; rfl),
        List.filter_cons_of_neg hpa, ih hl]

/-- The first `n` elements of a sorted list are those with less than `n` elements before them. -/
theorem take_eq_filter {R : α → α → Prop} [DecidableRel R] (irrefl : ∀ a, ¬R a a)
    (asymm : ∀ a b, R a b → ¬R b a) {l : List α} (h : l.Pairwise R) (n : Nat) :
    l.take n = l.filter fun a => decide ((l.filter fun b => decide (R b a)).length < n) := by
  induction l generalizing n with
  | nil => rw [List.take_nil, List.filter_nil]
  | cons a l ih =>
    obtain ⟨ha, hl⟩ := List.pairwise_cons.1 h
    have hfirst : ((a :: l).filter fun b => decide (R b a)) = [] := by
      apply List.filter_eq_nil_iff.2
      intro b hb hba
      rcases List.mem_cons.1 hb with rfl | hb
      · exact irrefl b (of_decide_eq_true hba)
      · exact asymm a b (ha b hb) (of_decide_eq_true hba)
    have hlater : ∀ b ∈ l, ((a :: l).filter fun b' => decide (R b' b)).length =
        (l.filter fun b' => decide (R b' b)).length + 1 := by
      intro b hb
      simp only [List.filter_cons, decide_eq_true (ha b hb), if_true, List.length_cons]
    cases n with
    | zero =>
      rw [List.take_zero]
      exact (List.filter_eq_nil_iff.2 fun b _ => by simp).symm
    | succ n =>
      rw [List.take_succ_cons, ih hl n, List.filter_cons_of_pos (by simp [hfirst])]
      refine congrArg (a :: ·) (List.filter_congr fun b hb => ?_)
      rw [hlater b hb, decide_eq_decide]
      exact Nat.succ_lt_succ_iff.symm

theorem take_takeWhile (p : α → Bool) (l : List α) (n : Nat) :
    (l.takeWhile p).take n = (l.take n).takeWhile p := by
  induction l generalizing n with
  | nil => simp
  | cons a l ih =>
    cases n with
    | zero => rfl
    | succ n =>
      by_cases hpa : p a = true
      · rw [List.takeWhile_cons_of_pos hpa, List.take_succ_cons, List.take_succ_cons,
          List.takeWhile_cons_of_pos hpa, ih]
      · rw [List.takeWhile_cons_of_neg hpa, List.take_succ_cons, List.takeWhile_cons_of_neg hpa,
          List.take_nil]

end Recurrence
