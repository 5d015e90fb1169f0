import Recurrence.Proofs.Json.Scalars
import Recurrence.Proofs.Yaml.Bracketed

/-!
# The line ends of a JSON text

A document is read with line feeds for all of its line ends.  In a JSON text those are in the gaps alone,
so that the unified text is the same document with other gaps (`Document.unifyBreaks_chars`).
-/

namespace Recurrence.Json

open Text Yaml Yaml.Layout

/-! ## Gaps -/

/-- A gap with line feeds for its line ends. -/
def Gap.unified (g : Gap) : List Char := unifyBreaks g.chars

theorem Gap.pad_or_tab (g : Gap) : ∀ x ∈ g.unified, isPad x = true ∨ x = '\t' := by
  intro x hx
  rcases mem_of_mem_unifyBreaks hx with rfl | ⟨hx, hreturn⟩
  · exact .inl rfl
  · have hspace := g.blank x hx
    simp only [Json.isSpace, Bool.or_eq_true, beq_iff_eq] at hspace
    rcases hspace with ((rfl | rfl) | rfl) | rfl
    · exact .inl rfl
    · exact .inr rfl
    · exact .inl rfl
    · exact absurd rfl hreturn

/-- Tabs are kept. -/
theorem Gap.all_isPad (g : Gap) : g.unified.all isPad = !g.chars.contains '\t' := by
  have htab : '\t' ∈ g.chars ↔ '\t' ∈ g.unified := by
    refine ⟨fun h => ?_, fun h => ?_⟩
    · exact (mem_unifyBreaks h).resolve_right fun h => absurd h.1 (by decide)
    · exact ((mem_of_mem_unifyBreaks h).resolve_left (by decide)).1
  rw [Bool.eq_iff_iff, List.all_eq_true, Bool.not_eq_true', ← Bool.not_eq_true, List.contains_iff_mem,
    htab]
  refine ⟨fun hall h => absurd (hall _ h) (by decide), fun h x hx => ?_⟩
  refine (g.pad_or_tab x hx).resolve_right ?_
  rintro rfl
  exact h hx

/-- Blanks alone are kept as they are. -/
theorem Gap.isNear_unified (n : Nat) (g : Gap) : isNear n g.unified = isNear n g.chars := by
  cases hblank : g.chars.all (· == ' ') with
  | true =>
    have hword := unifyBreaks_word (w := g.chars) (fun x hx => by
      rw [beq_iff_eq.1 (List.all_eq_true.1 hblank x hx)]
      decide) []
    rw [List.append_nil, unifyBreaks, List.append_nil] at hword
    rw [Gap.unified, hword]
  | false =>
    have hblank' : g.unified.all (· == ' ') = false := by
      refine Bool.eq_false_iff.2 fun h => Bool.eq_false_iff.1 hblank (List.all_eq_true.2 fun x hx => ?_)
      rcases mem_unifyBreaks hx with hx | ⟨-, hfeed⟩
      · exact List.all_eq_true.1 h x hx
      · exact absurd (List.all_eq_true.1 h _ hfeed) (by decide)
    rw [isNear, isNear, hblank, hblank', Bool.false_and, Bool.false_and]

/-! ## Texts -/

theorem unified_of_all {w : List Char} (h : w.all (fun c => c != '\r' && c != '\x85') = true) :
    ∀ c ∈ w, c ≠ '\r' ∧ c ≠ '\x85' := by
  intro c hc
  simpa using List.all_eq_true.1 h c hc

theorem Numeral.unified (n : Numeral) : ∀ c ∈ n.chars, c ≠ '\r' ∧ c ≠ '\x85' :=
  fun c hc => unified_of_all (w := numeralChars) (by decide) c (Numeral.mem_chars hc)

theorem mem_quoted {ps : List Piece} {x : Char} (hx : x ∈ quoted ps) : 32 ≤ x.toNat ∧ x.toNat < 128 := by
  simp only [quoted, List.mem_cons, List.mem_append, List.not_mem_nil, or_false] at hx
  rcases hx with rfl | hx | rfl
  · decide
  · exact bounds_of_mem_spell hx
  · decide

theorem unified_quoted (ps : List Piece) : ∀ c ∈ quoted ps, c ≠ '\r' ∧ c ≠ '\x85' := by
  intro c hc
  have hbounds := mem_quoted hc
  refine ⟨?_, ?_⟩
  · rintro rfl
    exact absurd hbounds.1 (by decide)
  · rintro rfl
    exact absurd hbounds.2 (by decide)

section Texts

variable {r : List Char}

theorem Gap.unifyBreaks_append (g : Gap) (hr : r.head? ≠ some '\n') :
    unifyBreaks (g.chars ++ r) = g.unified ++ unifyBreaks r :=
  Yaml.unifyBreaks_append g.chars hr

/-- Behind a gap there is a sign. -/
theorem Gap.unifyBreaks_sign (g : Gap) {x : Char} (hx : isSpace x = false) (hx' : x ≠ '\x85') :
    unifyBreaks (g.chars ++ x :: r) = g.unified ++ x :: unifyBreaks r := by
  have hfeed : x ≠ '\n' := by
    rintro rfl
    cases hx
  have hreturn : x ≠ '\r' := by
    rintro rfl
    cases hx
  have hhead : (x :: r).head? ≠ some '\n' := fun h => hfeed (Option.some.inj h)
  rw [g.unifyBreaks_append hhead, unifyBreaks_cons hreturn hx']

theorem Label.unifyBreaks_chars (l : Label) (hr : r.head? ≠ some '\n') :
    unifyBreaks (l.chars Gap.chars ++ r) = l.chars Gap.unified ++ unifyBreaks r := by
  simp only [Label.chars, List.append_assoc, List.cons_append]
  rw [unifyBreaks_word (unified_quoted l.name), l.colon.unifyBreaks_sign (by decide) (by decide),
    l.before.unifyBreaks_append hr]

theorem head?_ne_feed {s s' : List Char} {c : Char} (h : s = c :: s') (hc : isSpace c = false)
    (r : List Char) : (s ++ r).head? ≠ some '\n' := by
  rw [h]
  rintro ⟨⟩
  cases hc

theorem Tree.head?_chars (w : Gap → List Char) (t : Tree) (r : List Char) :
    (t.chars w ++ r).head? ≠ some '\n' := by
  obtain ⟨c, s, hc, hspace, -⟩ := t.exists_head w
  exact head?_ne_feed hc hspace r

theorem Items.head?_chars (w : Gap → List Char) (items : Items) (r : List Char) :
    (items.chars w ++ r).head? ≠ some '\n' := by
  obtain ⟨c, s, hc, hspace, -⟩ := items.exists_head w
  exact head?_ne_feed hc hspace r

theorem Members.head?_chars (w : Gap → List Char) (members : Members) (r : List Char) :
    (members.chars w ++ r).head? ≠ some '\n' := by
  obtain ⟨s, hs⟩ := members.exists_head w
  exact head?_ne_feed hs (by decide) r

mutual

theorem Tree.unifyBreaks_chars (r : List Char) :
    (t : Tree) → unifyBreaks (t.chars Gap.chars ++ r) = t.chars Gap.unified ++ unifyBreaks r
  | .null => unifyBreaks_word (unified_of_all (w := "null".toList) (by decide)) r
  | .bool true => unifyBreaks_word (unified_of_all (w := "true".toList) (by decide)) r
  | .bool false => unifyBreaks_word (unified_of_all (w := "false".toList) (by decide)) r
  | .number n => unifyBreaks_word n.unified r
  | .text ps => unifyBreaks_word (unified_quoted ps) r
  | .emptyList gap => by
    simp only [Tree.chars, List.cons_append, List.append_assoc, List.nil_append]
    rw [unifyBreaks_cons (by decide) (by decide), gap.unifyBreaks_sign (by decide) (by decide)]
  | .list gap items => by
    simp only [Tree.chars, List.cons_append, List.append_assoc]
    rw [unifyBreaks_cons (by decide) (by decide),
      gap.unifyBreaks_append (items.head?_chars _ r), items.unifyBreaks_chars]
  | .emptyMap gap => by
    simp only [Tree.chars, List.cons_append, List.append_assoc, List.nil_append]
    rw [unifyBreaks_cons (by decide) (by decide), gap.unifyBreaks_sign (by decide) (by decide)]
  | .map gap members => by
    simp only [Tree.chars, List.cons_append, List.append_assoc]
    rw [unifyBreaks_cons (by decide) (by decide),
      gap.unifyBreaks_append (members.head?_chars _ r), members.unifyBreaks_chars]

theorem Items.unifyBreaks_chars (r : List Char) :
    (items : Items) →
      unifyBreaks (items.chars Gap.chars ++ r) = items.chars Gap.unified ++ unifyBreaks r
  | .last t gap => by
    simp only [Items.chars, List.cons_append, List.append_assoc, List.nil_append]
    rw [t.unifyBreaks_chars, gap.unifyBreaks_sign (by decide) (by decide)]
  | .more t gap next rest => by
    simp only [Items.chars, List.cons_append, List.append_assoc]
    rw [t.unifyBreaks_chars, gap.unifyBreaks_sign (by decide) (by decide),
      next.unifyBreaks_append (rest.head?_chars _ r), rest.unifyBreaks_chars]

theorem Members.unifyBreaks_chars (r : List Char) :
    (members : Members) →
      unifyBreaks (members.chars Gap.chars ++ r) = members.chars Gap.unified ++ unifyBreaks r
  | .last l t gap => by
    simp only [Members.chars, List.cons_append, List.append_assoc, List.nil_append]
    rw [l.unifyBreaks_chars (t.head?_chars _ _), t.unifyBreaks_chars,
      gap.unifyBreaks_sign (by decide) (by decide)]
  | .more l t gap next rest => by
    simp only [Members.chars, List.cons_append, List.append_assoc]
    rw [l.unifyBreaks_chars (t.head?_chars _ _), t.unifyBreaks_chars,
      gap.unifyBreaks_sign (by decide) (by decide),
      next.unifyBreaks_append (rest.head?_chars _ r), rest.unifyBreaks_chars]

end

theorem Document.unifyBreaks_chars (d : Document) :
    unifyBreaks (d.chars Gap.chars) = d.chars Gap.unified := by
  have hafter : unifyBreaks d.after.chars = d.after.unified := rfl
  rw [Document.chars, d.before.unifyBreaks_append (d.root.head?_chars _ _), d.root.unifyBreaks_chars,
    hafter]
  rfl

end Texts

end Recurrence.Json
