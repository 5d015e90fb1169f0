import Recurrence.Proofs.Rule.Reread

/-!
# Texts that come back

A rule text is taken apart by three cuts, one inside the other: the prefix comes off its front, the rest
is split at the semicolons, and each part is cut at its first equals sign.  Every cut can be undone, and
in one way only: what it gives is all that could be put together to the same text (`cutLead_eq_iff`,
`Text.splitOn_eq_iff`, `Token.Read.ofPart?_toPart`).  So a list of tokens that a text can be divided into
is the one that is found there (`Divides.ofText_eq`).

What is put together again is part of the text (`toText_sublist`), and nothing is missing if the text is
tidy, without white space at its ends and with a key in each part (`Tidy.toText_ofText`).  This is the only
way for a text to come back as it was, unless there is no more to it than a prefix
(`toText_ofText_eq_iff`).
-/

namespace Recurrence

open Text

theorem Token.ofPart?_isSome_iff {p : List Char} :
    (ofPart? p).isSome = true ↔ ¬Blank (cutAt '=' p).1 := by
  rw [← strip_eq_nil_iff, ofPart?]
  by_cases h : strip (cutAt '=' p).1 = []
  · simp [h]
  · simp [h]

namespace TokenList

variable {s p rest : List Char} {l : TokenList}

/-! ## The prefix and the tokens of a text -/

/-- `p`, with which the text `s` begins, is the prefix in some spelling, or nothing if `s` has none. -/
def IsLead (p s : List Char) : Prop :=
  upper p = rulePrefix ∨ p = [] ∧ ∀ q, q <+: s → upper q ≠ rulePrefix

/-- **A prefix is cut off in one way.** -/
theorem cutLead_eq_iff : cutLead s = (p, rest) ↔ p ++ rest = s ∧ IsLead p s := by
  constructor
  · intro h
    have happend := cutLead_append s
    rw [h] at happend
    refine ⟨happend, ?_⟩
    rcases cutLead_cases s with hcut | ⟨q, r, hq, -, hcut⟩
    · rw [h] at hcut
      refine .inr ⟨congrArg Prod.fst hcut, ?_⟩
      rintro q ⟨r, rfl⟩ hq
      rw [cutLead_append_of_lead hq, hcut] at h
      exact lead_ne_nil hq (congrArg Prod.fst h)
    · rw [h] at hcut
      have hp : p = q := congrArg Prod.fst hcut
      exact .inl (hp ▸ hq)
  · rintro ⟨rfl, hp | ⟨rfl, hnone⟩⟩
    · exact cutLead_append_of_lead hp rest
    · rcases cutLead_cases rest with hcut | ⟨q, r, hq, hrest, -⟩
      · exact hcut
      · exact absurd hq (hnone q ⟨r, hrest.symm⟩)

/-- The prefix and the tokens make up the text, and the prefix is the one that the text has.  There is a
token, and each is named and takes up its part: the key ends at the first equals sign, and no token reaches
over a semicolon. -/
structure Divides (l : TokenList) (s : List Char) : Prop where
  text : l.toText = s
  lead : IsLead l.lead s
  tokens : l.tokens ≠ []
  read : ∀ t ∈ l.tokens, t.Read

/-- A text without white space at its ends is divided in one way only. -/
theorem Divides.ofText_eq (h : l.Divides s) (hs : strip s = s) : ofText s = l := by
  have hcut : cutLead s = (l.lead, joinWith ';' (l.tokens.map Token.toPart)) :=
    cutLead_eq_iff.2 ⟨h.text, h.lead⟩
  have hparts := splitOn_joinWith (mt List.map_eq_nil_iff.1 h.tokens) (semicolon_not_mem_toPart h.read)
  rw [ofText, hs, hcut, hparts, filterMap_ofPart?_toPart h.read]

/-! ## What comes back -/

/-- A text without white space at its ends, in which each part behind the prefix has a key. -/
structure Tidy (s : List Char) : Prop where
  front : ∀ c ∈ s.head?, isBlank c = false
  back : ∀ c ∈ s.getLast?, isBlank c = false
  keyed : ∀ p ∈ splitOn ';' (cutLead s).2, ¬Blank (cutAt '=' p).1

theorem Tidy.strip_eq (h : Tidy s) : strip s = s := strip_eq_self_iff.2 ⟨h.front, h.back⟩

theorem Tidy.toText_ofText (h : Tidy s) : (ofText s).toText = s := by
  have hkept : ((splitOn ';' (cutLead s).2).filter fun p => (Token.ofPart? p).isSome) =
      splitOn ';' (cutLead s).2 :=
    List.filter_eq_self.2 fun p hp => Token.ofPart?_isSome_iff.2 (h.keyed p hp)
  rw [TokenList.toText_ofText, h.strip_eq, hkept, joinWith_splitOn, cutLead_append]

theorem Tidy.divides (h : Tidy s) : (ofText s).Divides s := by
  refine ⟨h.toText_ofText, ?_, ?_, read_ofText s⟩
  · have hlead : (ofText s).lead = (cutLead s).1 := by rw [ofText, h.strip_eq]
    rw [hlead]
    exact (cutLead_eq_iff.1 rfl).2
  · intro hnil
    obtain ⟨p, ps, hparts⟩ := List.exists_cons_of_ne_nil (splitOn_ne_nil ';' (cutLead s).2)
    have hp : p ∈ splitOn ';' (cutLead s).2 := hparts ▸ List.mem_cons_self
    rw [ofText, h.strip_eq, List.filterMap_eq_nil_iff] at hnil
    have hkeyed := Token.ofPart?_isSome_iff.2 (h.keyed p hp)
    rw [hnil p hp] at hkeyed
    cases hkeyed

/-- Putting a text together again adds nothing to it and moves nothing. -/
theorem toText_sublist (s : List Char) : (ofText s).toText.Sublist (strip s) := by
  have hkept (ps : List (List Char)) :
      (joinWith ';' (ps.filter fun p => (Token.ofPart? p).isSome)).Sublist (joinWith ';' ps) :=
    joinWith_sublist List.filter_sublist
  have happend := (hkept (splitOn ';' (cutLead (strip s)).2)).append_left (cutLead (strip s)).1
  rwa [joinWith_splitOn, cutLead_append, ← toText_ofText] at happend

/-- A text that is no more than a prefix comes back, without a token. -/
theorem toText_ofText_of_lead (h : upper s = rulePrefix) : (ofText s).toText = s := by
  have hcut := cutLead_append_of_lead h []
  rw [List.append_nil] at hcut
  rw [toText_ofText, strip_of_unblank (isBlank_of_lead h), hcut]
  exact List.append_nil s

theorem strip_eq_of_toText_ofText (h : (ofText s).toText = s) : strip s = s := by
  have hsublist := toText_sublist s
  rw [h] at hsublist
  exact (strip_sublist s).antisymm hsublist

/-- A text that comes back has lost neither white space nor a part. -/
theorem tidy_of_toText_ofText (h : (ofText s).toText = s) :
    Tidy s ∨ s = [] ∨ upper s = rulePrefix := by
  have hstrip := strip_eq_of_toText_ofText h
  obtain ⟨hfront, hback⟩ := strip_eq_self_iff.1 hstrip
  rw [toText_ofText, hstrip] at h
  have happend := cutLead_append s
  have hbody := List.append_cancel_left (h.trans happend.symm)
  by_cases hkept : ((splitOn ';' (cutLead s).2).filter fun p => (Token.ofPart? p).isSome) = []
  · -- Nothing is kept, so there is nothing behind the prefix.
    right
    rw [hkept] at hbody
    rw [← hbody, joinWith, List.append_nil] at happend
    rcases (cutLead_eq_iff.1 (rfl : cutLead s = _)).2 with hlead | ⟨hnil, -⟩
    · exact .inr (happend ▸ hlead)
    · exact .inl (happend.symm.trans hnil)
  · -- What is kept joins to all that is behind the prefix, so it is all of its parts.
    left
    refine ⟨hfront, hback, fun p hp => ?_⟩
    have hall := splitOn_eq_iff.2 ⟨hkept, fun p hp =>
      not_mem_of_mem_splitOn (List.mem_of_mem_filter hp), hbody⟩
    rw [hall] at hp
    exact Token.ofPart?_isSome_iff.1 (List.mem_filter.1 hp).2

/-- **A text comes back as it was** exactly if it is tidy or no more than a prefix.  A tidy text has one
division into a prefix and tokens, which is the one that is found, so that all of it is kept: keys and
values of any kind as they are spelled, with or without an equals sign, and the spelling of the prefix. -/
theorem toText_ofText_eq_iff (r : String) :
    (String.ofList (ofText r.toList).toText = r ↔
        Tidy r.toList ∨ r = "" ∨ upper r.toList = rulePrefix) ∧
      (Tidy r.toList → ∀ l : TokenList, ofText r.toList = l ↔ l.Divides r.toList) := by
  have hchars : String.ofList (ofText r.toList).toText = r ↔ (ofText r.toList).toText = r.toList := by
    rw [← String.toList_inj, String.toList_ofList]
  have hempty : r = "" ↔ r.toList = [] := String.toList_eq_nil_iff.symm
  rw [hchars, hempty]
  refine ⟨⟨tidy_of_toText_ofText, ?_⟩, ?_⟩
  · rintro (htidy | hnil | hlead)
    · exact htidy.toText_ofText
    · rw [hnil]
      rfl
    · exact toText_ofText_of_lead hlead
  · intro htidy l
    constructor
    · rintro rfl
      exact htidy.divides
    · intro h
      exact h.ofText_eq htidy.strip_eq

/-- A mixed spelling of the prefix, white space inside, a key that is none of a rule and two equals signs,
no equals sign, and an empty value. -/
def memo : String := "rRule:freq = daily;X-NOTE=Stand up=9am;FLAG;COUNT="

theorem toText_ofText_eq_iff_memo :
    Tidy memo.toList ∧ String.ofList (ofText memo.toList).toText = memo ∧
      ofText memo.toList = ⟨"rRule:".toList, [⟨"freq ".toList, some " daily".toList⟩,
        ⟨"X-NOTE".toList, some "Stand up=9am".toList⟩, ⟨"FLAG".toList, none⟩,
        ⟨"COUNT".toList, some []⟩]⟩ := by
  have htidy : Tidy memo.toList := by
    have hstrip : strip memo.toList = memo.toList := by decide +kernel
    obtain ⟨hfront, hback⟩ := strip_eq_self_iff.1 hstrip
    refine ⟨hfront, hback, ?_⟩
    simp only [← strip_eq_nil_iff]
    decide +kernel
  obtain ⟨hback, hdivision⟩ := toText_ofText_eq_iff memo
  refine ⟨htidy, hback.2 (.inl htidy), (hdivision htidy _).2 ⟨?_, .inl ?_, ?_, ?_⟩⟩
  · decide +kernel
  · decide +kernel
  · exact List.cons_ne_nil _ _
  · intro t ht
    have hread : strip t.key ≠ [] ∧ '=' ∉ t.key ∧ ';' ∉ t.toPart := by
      revert t
      decide +kernel
    exact ⟨hread.1, hread.2.1, hread.2.2⟩

/-- White space behind the last value and an empty part are lost. -/
example : String.ofList (ofText "FREQ=DAILY;;FLAG ".toList).toText = "FREQ=DAILY;FLAG" := by
  decide +kernel

end TokenList

end Recurrence
