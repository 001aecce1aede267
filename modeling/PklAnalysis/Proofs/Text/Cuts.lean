import PklAnalysis.Text.Cut
import Mathlib

/-!
# Readers and cuts

A reader that succeeds has succeeded at each of its steps, and a text that has been cut is put
together again from the pieces: the first occurrence of a character is the one with none before it,
the last occurrence the one with none after it.
-/

namespace PklAnalysis

theorem bind_eq_ok {ε α β : Type} {x : Except ε α} {f : α → Except ε β} {b : β} :
    x >>= f = .ok b ↔ ∃ a, x = .ok a ∧ f a = .ok b := by
  cases x with
  | error e => simp [bind, Except.bind]
  | ok a => simp [bind, Except.bind]

theorem map_eq_ok {ε α β : Type} {x : Except ε α} {f : α → β} {b : β} :
    x.map f = .ok b ↔ ∃ a, x = .ok a ∧ f a = b := by
  cases x with
  | error e => simp [Except.map]
  | ok a => simp [Except.map]

theorem mapError_eq_ok {ε ε' α : Type} {x : Except ε α} {f : ε → ε'} {a : α} :
    x.mapError f = .ok a ↔ x = .ok a := by
  cases x with
  | error e => simp [Except.mapError]
  | ok a => simp [Except.mapError]

namespace Text

/-! ## Cuts at a character -/

theorem cutWhere?_eq_some_iff {c : Char} {cs a b : List Char} :
    cutWhere? (· = c) cs = some (a, b) ↔ cs = a ++ c :: b ∧ c ∉ a := by
  induction cs generalizing a with
  | nil => simp [cutWhere?]
  | cons d cs ih =>
    by_cases h : d = c
    · cases a with
      | nil => simp [cutWhere?, h]
      | cons e a =>
        simp only [cutWhere?, h, decide_true, if_true, List.cons_append, List.cons.injEq,
          List.mem_cons, not_or, Option.some.injEq, Prod.mk.injEq]
        constructor
        · rintro ⟨h', -⟩
          cases h'
        · rintro ⟨⟨rfl, -⟩, hne, -⟩
          exact absurd rfl hne
    · cases a with
      | nil => simp [cutWhere?, h]
      | cons e a =>
        simp only [cutWhere?, h, decide_false, Bool.false_eq_true, if_false, Option.map_eq_some_iff,
          Prod.exists, Prod.mk.injEq, List.cons_append, List.cons.injEq, List.mem_cons, not_or]
        constructor
        · rintro ⟨a', b', hcut, ⟨rfl, rfl⟩, rfl⟩
          obtain ⟨hcs, ha⟩ := ih.mp hcut
          exact ⟨⟨rfl, hcs⟩, Ne.symm h, ha⟩
        · rintro ⟨⟨rfl, hcs⟩, -, ha⟩
          exact ⟨a, b, ih.mpr ⟨hcs, ha⟩, ⟨rfl, rfl⟩, rfl⟩

theorem cutWhere?_eq_none_iff {c : Char} {cs : List Char} :
    cutWhere? (· = c) cs = none ↔ c ∉ cs := by
  induction cs with
  | nil => simp [cutWhere?]
  | cons d cs ih =>
    by_cases h : d = c
    · simp [cutWhere?, h]
    · simp [cutWhere?, h, ih, Ne.symm h]

theorem cut?_eq_some_iff {c : Char} {s a b : String} :
    cut? c s = some (a, b) ↔ s.toList = a.toList ++ c :: b.toList ∧ c ∉ a.toList := by
  rw [← cutWhere?_eq_some_iff, cut?, Option.map_eq_some_iff]
  constructor
  · rintro ⟨⟨a', b'⟩, hcut, h⟩
    cases h
    simpa using hcut
  · intro hcut
    exact ⟨_, hcut, by simp⟩

theorem cut?_eq_none_iff {c : Char} {s : String} : cut? c s = none ↔ c ∉ s.toList := by
  rw [cut?, Option.map_eq_none_iff, cutWhere?_eq_none_iff]

theorem cutLast?_eq_some_iff {c : Char} {s a b : String} :
    cutLast? c s = some (a, b) ↔ s.toList = a.toList ++ c :: b.toList ∧ c ∉ b.toList := by
  have hreverse : s.toList = a.toList ++ c :: b.toList ∧ c ∉ b.toList ↔
      s.toList.reverse = b.toList.reverse ++ c :: a.toList.reverse ∧ c ∉ b.toList.reverse := by
    rw [List.mem_reverse, ← @List.reverse_inj _ s.toList]
    simp
  rw [hreverse, ← cutWhere?_eq_some_iff, cutLast?, Option.map_eq_some_iff]
  constructor
  · rintro ⟨⟨a', b'⟩, hcut, h⟩
    cases h
    simpa using hcut
  · intro hcut
    exact ⟨_, hcut, by simp⟩

/-! ## Fixed beginnings -/

theorem after?_eq_some_iff {beginning s rest : String} :
    after? beginning s = some rest ↔ s = beginning ++ rest := by
  rw [after?, Option.map_eq_some_iff, ← String.toList_inj, String.toList_append]
  constructor
  · rintro ⟨cs, hcs, rfl⟩
    simpa using (List.isPrefixOf?_eq_some_iff_append_eq.mp hcs).symm
  · intro h
    exact ⟨rest.toList, List.isPrefixOf?_eq_some_iff_append_eq.mpr h.symm, by simp⟩

theorem after?_eq_none_iff {beginning s : String} :
    after? beginning s = none ↔ ∀ rest, s ≠ beginning ++ rest := by
  simp only [Option.eq_none_iff_forall_ne_some, ne_eq, after?_eq_some_iff]

theorem startsWith_iff {beginning s : String} :
    startsWith beginning s ↔ ∃ rest, s = beginning ++ rest := by
  rw [startsWith, List.isPrefixOf_iff_prefix]
  constructor
  · rintro ⟨cs, hcs⟩
    exact ⟨String.ofList cs, by rw [← String.toList_inj]; simp [hcs]⟩
  · rintro ⟨rest, rfl⟩
    exact ⟨rest.toList, by simp⟩

/-! ## Blanks -/

theorem head?_dropWhile {cs : List Char} :
    ∀ c ∈ (cs.dropWhile isBlank).head?, ¬isBlank c := by
  intro c hc
  have := List.head?_dropWhile_not isBlank cs
  simp_all

/-- A text that neither begins nor ends with a blank. -/
structure IsTrimmed (s : String) : Prop where
  head : ∀ c ∈ s.toList.head?, ¬isBlank c
  last : ∀ c ∈ s.toList.getLast?, ¬isBlank c

theorem dropWhile_isBlank {cs : List Char} (h : ∀ c ∈ cs.head?, ¬isBlank c) :
    cs.dropWhile isBlank = cs := by
  cases cs with
  | nil => rfl
  | cons c cs => simpa using h

theorem IsTrimmed.trim_eq {s : String} (h : IsTrimmed s) : trim s = s := by
  have hlast : ∀ c ∈ s.toList.reverse.head?, ¬isBlank c := by simpa using h.last
  rw [trim, dropWhile_isBlank h.head, dropWhile_isBlank hlast]
  simp

theorem isTrimmed_trim (s : String) : IsTrimmed (trim s) := by
  have htrim : (trim s).toList = (s.toList.dropWhile isBlank).rdropWhile isBlank := by
    rw [trim, List.rdropWhile, String.toList_ofList]
  have hprefix : (trim s).toList <+: s.toList.dropWhile isBlank := by
    rw [htrim]
    exact List.rdropWhile_prefix isBlank _
  refine ⟨fun c hc => ?_, fun c hc => ?_⟩
  · obtain ⟨cs, hcs⟩ := hprefix
    exact head?_dropWhile c (hcs ▸ List.mem_head?_append_of_mem_head? hc)
  · rw [trim, String.toList_ofList, List.getLast?_reverse] at hc
    exact head?_dropWhile c hc

/-- The end of a trimmed text does not end with a blank either. -/
theorem IsTrimmed.last_of_suffix {s : String} (h : IsTrimmed s) {cs : List Char}
    (hcs : cs <:+ s.toList) : ∀ c ∈ cs.getLast?, ¬isBlank c := by
  obtain ⟨front, hfront⟩ := hcs
  exact fun c hc => h.last c (hfront ▸ List.mem_getLast?_append_of_mem_getLast? hc)

end Text

end PklAnalysis
