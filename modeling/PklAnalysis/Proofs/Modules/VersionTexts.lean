import PklAnalysis.Version
import PklAnalysis.Proofs.Text.Cuts

/-!
# The texts of versions

`Version.parse` reads nothing that `Version.text` would not write: no leading zeros, no empty
identifiers, no blanks.  A text that is a version is therefore the written form of that version,
letter by letter, and it is made of digits, letters, hyphens, dots and plus signs alone.
-/

namespace PklAnalysis.Version

/-- What may stand in the text of a version. -/
def isTextChar (c : Char) : Bool := isIdentifierChar c || c = '.' || c = '+'

theorem isTextChar_of_isDigit {c : Char} (h : c.isDigit) : isTextChar c := by
  simp [isTextChar, isIdentifierChar, Char.isAlphanum, h]

/-! ## Numbers -/

theorem toNat_of_isDigit {c : Char} (h : c.isDigit) : 48 ≤ c.toNat ∧ c.toNat ≤ 57 := by
  simpa [Char.isDigit, UInt32.le_iff_toNat_le] using h

theorem digitValue_lt {c : Char} (h : c.isDigit) : c.toNat - '0'.toNat < 10 := by
  have hzero : '0'.toNat = 48 := rfl
  have := toNat_of_isDigit h
  omega

theorem toDigits_digitValue {c : Char} (h : c.isDigit) :
    Nat.toDigits 10 (c.toNat - '0'.toNat) = [c] := by
  have hchar : Nat.digitChar (c.toNat - '0'.toNat) = c := by
    have hzero : '0'.toNat = 48 := rfl
    have := toNat_of_isDigit h
    rw [← Char.toNat_inj, Nat.toNat_digitChar_of_lt_ten (digitValue_lt h)]
    omega
  rw [Nat.toDigits_of_lt_base (digitValue_lt h), hchar]

/-- The digits of a number that is read are those that write it. -/
theorem toDigits_of_digitsFrom {part : Part} {n value : Nat} {cs rest : List Char}
    (h : digitsFrom part value cs = .ok (n, rest)) :
    Nat.toDigits 10 n ++ rest = Nat.toDigits 10 value ++ cs := by
  induction cs generalizing value with
  | nil =>
    cases h
    rfl
  | cons c cs ih =>
    rw [digitsFrom] at h
    split at h
    next hdigit =>
      split at h
      · cases h
      next hzero =>
        simp only at h
        split at h
        · cases h
        · have hnext : Nat.toDigits 10 (value * 10 + (c.toNat - '0'.toNat))
              = Nat.toDigits 10 value ++ [c] := by
            rw [← toDigits_digitValue hdigit, Nat.toDigits_append_toDigits (by decide)
              (Nat.pos_of_ne_zero hzero) (digitValue_lt hdigit), Nat.mul_comm]
          rw [ih h, hnext, List.append_assoc, List.singleton_append]
    · cases h
      rfl

theorem toDigits_of_number {part : Part} {n : Nat} {cs rest : List Char}
    (h : number part cs = .ok (n, rest)) : cs = Nat.toDigits 10 n ++ rest := by
  cases cs with
  | nil => cases h
  | cons c cs =>
    rw [number] at h
    split at h
    next hdigit => rw [toDigits_of_digitsFrom h, toDigits_digitValue hdigit, List.singleton_append]
    · cases h

theorem eq_cons_of_dot {part : Part} {cs rest : List Char} (h : dot part cs = .ok rest) :
    cs = '.' :: rest := by
  unfold dot at h
  split at h <;> cases h
  rfl

/-! ## Identifiers -/

theorem finish_eq_ok {part : Part} {done segment cs ids rest : List Char}
    (h : identifiersFrom.finish part done segment cs = .ok (ids, rest)) :
    segment ≠ [] ∧ ids = (segment ++ done).reverse ∧ rest = cs := by
  unfold identifiersFrom.finish at h
  split at h
  · cases h
  next hsegment =>
    split at h
    · cases h
    · cases h
      exact ⟨by simpa using hsegment, rfl, rfl⟩

/-- Reading identifiers takes them off the text and keeps what has been read. -/
theorem exists_of_identifiersFrom {part : Part} {done segment cs ids rest : List Char}
    (h : identifiersFrom part done segment cs = .ok (ids, rest)) :
    ∃ read, cs = read ++ rest ∧ ids = (segment ++ done).reverse ++ read ∧ ids ≠ [] ∧
      ∀ c ∈ read, isTextChar c := by
  induction cs generalizing done segment with
  | nil =>
    obtain ⟨hsegment, hids, hrest⟩ := finish_eq_ok h
    exact ⟨[], by simp [hrest], by simp [hids], by simp [hids, hsegment], by simp⟩
  | cons c cs ih =>
    rw [identifiersFrom] at h
    split at h
    next hc =>
      obtain ⟨read, hcs, hids, hne, hread⟩ := ih h
      refine ⟨c :: read, by simp [hcs], by simp [hids], hne, ?_⟩
      simpa [isTextChar, hc] using hread
    split at h
    next hc =>
      split at h
      · cases h
      split at h
      · cases h
      obtain ⟨read, hcs, hids, hne, hread⟩ := ih h
      refine ⟨c :: read, by simp [hcs], by simp [hids, hc], hne, ?_⟩
      simpa [isTextChar, hc] using hread
    · obtain ⟨hsegment, hids, hrest⟩ := finish_eq_ok h
      exact ⟨[], by simp [hrest], by simp [hids], by simp [hids, hsegment], by simp⟩

/-- The text of a list of identifiers after its mark; none stands for no list. -/
def markedText (mark : Char) (ids : List Char) : List Char :=
  if ids = [] then [] else mark :: ids

theorem eq_append_of_identifiers {part : Part} {mark : Char} {cs rest : List Char}
    {ids : Option (List Char)} (h : identifiers part mark cs = .ok (ids, rest)) :
    cs = markedText mark (ids.getD []) ++ rest ∧ ∀ c ∈ ids.getD [], isTextChar c := by
  cases cs with
  | nil =>
    cases h
    simp [markedText]
  | cons c cs =>
    rw [identifiers] at h
    split at h
    next hc =>
      obtain ⟨⟨read, rest'⟩, hfrom, heq⟩ := map_eq_ok.mp h
      cases heq
      obtain ⟨read', hcs, hread', hne, hchars⟩ := exists_of_identifiersFrom hfrom
      simp only [List.append_nil, List.reverse_nil, List.nil_append] at hread'
      subst hread'
      exact ⟨by simp [markedText, hne, hc, hcs], by simpa using hchars⟩
    · cases h
      simp [markedText]

/-! ## Versions -/

theorem text_toList (v : Version) :
    v.text.toList = Nat.toDigits 10 v.major ++ '.' :: (Nat.toDigits 10 v.minor ++ '.' ::
      (Nat.toDigits 10 v.patch ++ (markedText '-' v.preRelease.toList
        ++ markedText '+' v.build.toList))) := by
  have hmarked (mark : String) (c : Char) (hmark : mark.toList = [c]) (ids : String) :
      (if ids = "" then "" else mark ++ ids).toList = markedText c ids.toList := by
    by_cases h : ids = "" <;> simp [markedText, h, hmark]
  simp [text, hmarked "-" '-' rfl, hmarked "+" '+' rfl]

/-- The steps in which a version is read, one behind the other. -/
theorem toList_of_parse {s : String} {v : Version} (h : parse s = .ok v) :
    s.toList = Nat.toDigits 10 v.major ++ '.' :: (Nat.toDigits 10 v.minor ++ '.' ::
      (Nat.toDigits 10 v.patch ++ (markedText '-' v.preRelease.toList
        ++ markedText '+' v.build.toList))) ∧
      (∀ c ∈ v.preRelease.toList, isTextChar c) ∧ ∀ c ∈ v.build.toList, isTextChar c := by
  simp only [parse] at h
  split at h
  · cases h
  obtain ⟨⟨major, s₁⟩, hmajor, h⟩ := bind_eq_ok.mp h
  obtain ⟨s₂, hdot₁, h⟩ := bind_eq_ok.mp h
  obtain ⟨⟨minor, s₃⟩, hminor, h⟩ := bind_eq_ok.mp h
  obtain ⟨s₄, hdot₂, h⟩ := bind_eq_ok.mp h
  obtain ⟨⟨patch, s₅⟩, hpatch, h⟩ := bind_eq_ok.mp h
  obtain ⟨⟨pre, s₆⟩, hpre, h⟩ := bind_eq_ok.mp h
  obtain ⟨⟨build, s₇⟩, hbuild, h⟩ := bind_eq_ok.mp h
  obtain ⟨hs₅, hpreChars⟩ := eq_append_of_identifiers hpre
  obtain ⟨hs₆, hbuildChars⟩ := eq_append_of_identifiers hbuild
  dsimp only at hdot₁ hdot₂ hs₅ hs₆ h
  cases s₇ with
  | cons c cs => cases h
  | nil =>
    cases h
    refine ⟨?_, by simpa using hpreChars, by simpa using hbuildChars⟩
    rw [toDigits_of_number hmajor, eq_cons_of_dot hdot₁, toDigits_of_number hminor,
      eq_cons_of_dot hdot₂, toDigits_of_number hpatch, hs₅, hs₆]
    simp

/-- A text that is a version is the written form of that version. -/
theorem text_of_parse {s : String} {v : Version} (h : parse s = .ok v) : v.text = s := by
  rw [← String.toList_inj, text_toList, (toList_of_parse h).1]

theorem isTextChar_of_mem_parse {s : String} {v : Version} (h : parse s = .ok v) :
    ∀ c ∈ s.toList, isTextChar c := by
  obtain ⟨hs, hpre, hbuild⟩ := toList_of_parse h
  have hdigits (n : Nat) : ∀ c ∈ Nat.toDigits 10 n, isTextChar c := fun c hc =>
    isTextChar_of_isDigit (Nat.isDigit_of_mem_toDigits (by decide) (by decide) hc)
  have hmarked (mark : Char) (hmark : isTextChar mark) (ids : List Char)
      (hids : ∀ c ∈ ids, isTextChar c) : ∀ c ∈ markedText mark ids, isTextChar c := by
    unfold markedText
    split
    · simp
    · simpa [hmark] using hids
  have hdot : isTextChar '.' := rfl
  rw [hs]
  intro c hc
  simp only [List.mem_append, List.mem_cons] at hc
  obtain hc | rfl | hc | rfl | hc | hc | hc := hc
  · exact hdigits _ c hc
  · exact hdot
  · exact hdigits _ c hc
  · exact hdot
  · exact hdigits _ c hc
  · exact hmarked '-' rfl _ hpre c hc
  · exact hmarked '+' rfl _ hbuild c hc

theorem ne_empty_of_parse {s : String} {v : Version} (h : parse s = .ok v) : s ≠ "" := by
  rintro rfl
  cases h

end PklAnalysis.Version
