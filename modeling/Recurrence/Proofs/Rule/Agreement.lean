import Recurrence.Proofs.Rule.Tolerant
import Recurrence.Rule.Stored

/-!
# Strict and tolerant reading agree

What is stored as a rule is read in two ways.  The strict reader gives the rule that the tolerant one
gives, or fails; and it fails for one of two reasons.  Either the tolerant reader gives no rule, or it
gives one and has passed over the value of a key, which is the key that the error is about
(`Rule.readers_agree`).
-/

namespace Recurrence

namespace Rule

variable {s : String} {f : Frequency}

/-- Tolerant reading passes over the value of a key: it asks for the key, and the value is faulty. -/
def PassesOver (s : String) (k : Key) : Prop :=
  ∃ f, (TokenList.ofText s.toList).frequency? = some f ∧
    k ∈ (TokenList.ofText s.toList).readKeys f ∧ (TokenList.ofText s.toList).refuses k = true

theorem passesOver_iff (h : (TokenList.ofText s.toList).frequency? = some f) {k : Key} :
    PassesOver s k ↔ ∃ c ∈ ((TokenList.ofText s.toList).readRule f).complaints, c.key = k := by
  rw [TokenList.reports_readRule _ f k]
  constructor
  · rintro ⟨f', hf', hk⟩
    obtain rfl := Option.some.inj (h.symm.trans hf')
    exact hk
  · intro hk
    exact ⟨f, h, hk⟩

/-- At a frequency, strict reading gives what was read, if there are no complaints. -/
theorem parse_eq_ok_iff (h : (TokenList.ofText s.toList).frequency? = some f) {r : Rule} :
    parse s = .ok r ↔ ((TokenList.ofText s.toList).readRule f).complaints = [] ∧
      ((TokenList.ofText s.toList).readRule f).value = r := by
  rw [parse, read_of_frequency?_eq_some h]
  obtain ⟨r', complaints⟩ := (TokenList.ofText s.toList).readRule f
  cases complaints with
  | nil => simp
  | cons c complaints => simp

/-- At a frequency, a text is read strictly unless something is passed over. -/
theorem parse_cases (h : (TokenList.ofText s.toList).frequency? = some f) :
    (parse s = .ok ((TokenList.ofText s.toList).readRule f).value ∧ ∀ k, ¬PassesOver s k) ∨
      ∃ c, parse s = .error (.complaint c s) ∧ PassesOver s c.key := by
  cases hc : ((TokenList.ofText s.toList).readRule f).complaints with
  | nil =>
    refine .inl ⟨(parse_eq_ok_iff h).2 ⟨hc, rfl⟩, fun k hk => ?_⟩
    obtain ⟨c, hmem, -⟩ := (passesOver_iff h).1 hk
    rw [hc] at hmem
    exact absurd hmem List.not_mem_nil
  | cons c complaints =>
    have hhead : ((TokenList.ofText s.toList).readRule f).complaints.head? = some c := by
      rw [hc, List.head?_cons]
    refine .inr ⟨c, (parse_eq_error_iff h).2 ⟨c, hhead, rfl⟩, ?_⟩
    exact (passesOver_iff h).2 ⟨c, List.mem_of_head? hhead, rfl⟩

/-- **The two readers agree** on anything that is stored.  What is read strictly is read tolerantly as the
same rule, with nothing passed over, and so is the canonical text of that rule.  Where strict reading
fails, the error is about a value that tolerant reading passes over, or there is no rule at all. -/
theorem readers_agree (v : Value) :
    (∃ s r, v = .text s ∧ parseValue v = .ok r ∧ ofValue? v = some r ∧ decode? r.encode = some r ∧
        ∀ k, ¬PassesOver s k) ∨
      (∃ s r c, v = .text s ∧ parseValue v = .error (.complaint c s) ∧ ofValue? v = some r ∧
        PassesOver s c.key) ∨
      ∃ e, parseValue v = .error e ∧ ofValue? v = none ∧ ∀ c s, e ≠ .complaint c s := by
  cases v with
  | text s =>
    have hdecode := decode?_eq s
    cases hf : (TokenList.ofText s.toList).frequency? with
    | none =>
      rw [hf] at hdecode
      rcases parse_of_frequency?_eq_none hf with hparse | ⟨raw, hparse⟩
      · exact .inr (.inr ⟨_, hparse, hdecode, nofun⟩)
      · exact .inr (.inr ⟨_, hparse, hdecode, nofun⟩)
    | some f =>
      rw [hf] at hdecode
      rcases parse_cases hf with ⟨hparse, hnone⟩ | ⟨c, hparse, hc⟩
      · have hstored := decode?_encode (storable_of_decode? hdecode)
        exact .inl ⟨s, _, rfl, hparse, hdecode, hstored, hnone⟩
      · exact .inr (.inl ⟨s, _, c, rfl, hparse, hdecode, hc⟩)
  | _ => exact .inr (.inr ⟨_, rfl, rfl, nofun⟩)

end Rule

end Recurrence
