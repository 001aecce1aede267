import PklAnalysis.TypeExpr.Reader

/-!
# The grammar of annotations

The annotations as a grammar over characters, with no reader in sight:

    type := fn | post ('|' post)* ['|' fn]
    fn   := '(' [type (',' type)*] ')' '->' type
    post := atom '?'*
    atom := '(' type ')' | STRING | NAME ('.' NAME)* ['<' [type (',' type)*] '>']

Blanks may stand before every token and at the end.  A function swallows what follows its arrow,
so it can only be the last alternative, and no `?` belongs to it.

The second half is what deciding such a text character by character rests on: which character a
blank cannot be mistaken for, and what the next token of a text is.
-/

namespace PklAnalysis.TypeExpr

open Text (isBlank isLetter isNumeric)

/-! ## Tokens -/

/-- Blanks and nothing else. -/
def IsBlanks (b : List Char) : Prop := ∀ c ∈ b, isBlank c = true

/-- A token with any blanks before it. -/
def IsToken (token s : List Char) : Prop := ∃ b, IsBlanks b ∧ s = b ++ token

/-- A name, dotted or not. -/
inductive IsDotted : List Char → Prop
  | name {c : Char} {s : List Char} (start : isNameStart c = true)
      (parts : ∀ d ∈ s, isNamePart d = true) : IsDotted (c :: s)
  | dot {c : Char} {s r : List Char} (start : isNameStart c = true)
      (parts : ∀ d ∈ s, isNamePart d = true) (rest : IsDotted r) :
      IsDotted (c :: (s ++ '.' :: r))

/-- What stands between the quotes of a string literal, and the string it stands for. -/
inductive IsLiteralBody : List Char → List Char → Prop
  | nil : IsLiteralBody [] []
  | plain {c : Char} {s t : List Char} (quote : c ≠ '"') (backslash : c ≠ '\\')
      (rest : IsLiteralBody s t) : IsLiteralBody (c :: s) (c :: t)
  | escaped {c : Char} {s t : List Char} (rest : IsLiteralBody s t) :
      IsLiteralBody ('\\' :: c :: s) (c :: t)

/-- A number of question marks. -/
inductive AreMarks : Nat → List Char → Prop
  | none : AreMarks 0 []
  | more {n : Nat} {q s : List Char} (mark : IsToken ['?'] q) (rest : AreMarks n s) :
      AreMarks (n + 1) (q ++ s)

/-! ## Rules -/

mutual

/-- The rule `type`. -/
inductive IsType : List Char → TypeExpr → Prop
  | function {s : List Char} {a : TypeExpr} (h : IsFunction s a) : IsType s a
  | alternatives {s : List Char} {a : TypeExpr} {as : List TypeExpr}
      (h : AreAlternatives s (a :: as)) : IsType s (ofAlternatives a as)

/-- The part `post ('|' post)* ['|' fn]` of the rule `type`. -/
inductive AreAlternatives : List Char → List TypeExpr → Prop
  | one {s : List Char} {a : TypeExpr} (h : IsPostfixed s a) : AreAlternatives s [a]
  | function {s bar u : List Char} {a f : TypeExpr} (h : IsPostfixed s a) (sep : IsToken ['|'] bar)
      (last : IsFunction u f) : AreAlternatives (s ++ (bar ++ u)) [a, f]
  | more {s bar u : List Char} {a : TypeExpr} {as : List TypeExpr} (h : IsPostfixed s a)
      (sep : IsToken ['|'] bar) (rest : AreAlternatives u as) :
      AreAlternatives (s ++ (bar ++ u)) (a :: as)

/-- The rule `fn`. -/
inductive IsFunction : List Char → TypeExpr → Prop
  | arrow {left s arrow u : List Char} {params : List TypeExpr} {result : TypeExpr}
      (opening : IsToken ['('] left) (items : IsListUpTo ')' s params)
      (sep : IsToken ['-', '>'] arrow) (h : IsType u result) :
      IsFunction (left ++ (s ++ (arrow ++ u))) (.function params result)

/-- The rule `post`. -/
inductive IsPostfixed : List Char → TypeExpr → Prop
  | marks {s q : List Char} {a : TypeExpr} {n : Nat} (h : IsAtom s a) (marks : AreMarks n q) :
      IsPostfixed (s ++ q) (marked a n)

/-- The rule `atom`. -/
inductive IsAtom : List Char → TypeExpr → Prop
  | group {left s right : List Char} {a : TypeExpr} (opening : IsToken ['('] left)
      (h : IsType s a) (closing : IsToken [')'] right) : IsAtom (left ++ (s ++ right)) a
  | literal {left s t : List Char} (opening : IsToken ['"'] left) (body : IsLiteralBody s t) :
      IsAtom (left ++ (s ++ ['"'])) (.literal (String.ofList t))
  | name {s n : List Char} (dotted : IsDotted n) (h : IsToken n s) :
      IsAtom s (ofName (String.ofList n) [])
  | applied {s n left u : List Char} {args : List TypeExpr} (dotted : IsDotted n)
      (h : IsToken n s) (opening : IsToken ['<'] left) (items : IsListUpTo '>' u args) :
      IsAtom (s ++ (left ++ u)) (ofName (String.ofList n) args)

/-- A list of types that may be empty, with the bracket that closes it. -/
inductive IsListUpTo : Char → List Char → List TypeExpr → Prop
  | empty {close : Char} {right : List Char} (closing : IsToken [close] right) :
      IsListUpTo close right []
  | types {close : Char} {s right : List Char} {as : List TypeExpr} (items : AreTypes s as)
      (closing : IsToken [close] right) : IsListUpTo close (s ++ right) as

/-- Types with commas between, at least one. -/
inductive AreTypes : List Char → List TypeExpr → Prop
  | one {s : List Char} {a : TypeExpr} (h : IsType s a) : AreTypes s [a]
  | more {s comma u : List Char} {a : TypeExpr} {as : List TypeExpr} (h : IsType s a)
      (sep : IsToken [','] comma) (rest : AreTypes u as) :
      AreTypes (s ++ (comma ++ u)) (a :: as)

end

/-- A whole text is an annotation: a type with any blanks after it. -/
def Derives (s : List Char) (a : TypeExpr) : Prop := ∃ u b, IsType u a ∧ IsBlanks b ∧ s = u ++ b

/-! ## Blanks -/

theorem IsBlanks.nil : IsBlanks [] := by simp [IsBlanks]

theorem IsBlanks.append {b d : List Char} (hb : IsBlanks b) (hd : IsBlanks d) :
    IsBlanks (b ++ d) := by
  intro c hc
  rcases List.mem_append.mp hc with hc | hc
  · exact hb c hc
  · exact hd c hc

theorem skipBlanks_append {b : List Char} (hb : IsBlanks b) (s : List Char) :
    skipBlanks (b ++ s) = skipBlanks s :=
  List.dropWhile_append_of_pos hb

theorem skipBlanks_cons {c : Char} (hc : isBlank c = false) (s : List Char) :
    skipBlanks (c :: s) = c :: s := by
  simp [skipBlanks, hc]

/-- What `skipBlanks` leaves out is blanks. -/
theorem exists_skipBlanks (s : List Char) : ∃ b, IsBlanks b ∧ s = b ++ skipBlanks s :=
  ⟨s.takeWhile isBlank, fun _ hc => List.all_eq_true.mp List.all_takeWhile _ hc,
    List.takeWhile_append_dropWhile.symm⟩

theorem isBlank_of_skipBlanks {s r : List Char} {c : Char} (h : skipBlanks s = c :: r) :
    isBlank c = false := by
  have hdrop : s.dropWhile isBlank = c :: r := h
  have hc := List.head_dropWhile_not isBlank (l := s) (by simp [hdrop])
  simpa [hdrop] using hc

/-- A text is another one without some of the blanks at its front. -/
def Trims (s r : List Char) : Prop := ∃ b, IsBlanks b ∧ s = b ++ r

theorem Trims.refl (s : List Char) : Trims s s := ⟨[], IsBlanks.nil, rfl⟩

theorem Trims.trans {s r u : List Char} (h : Trims s r) (h' : Trims r u) : Trims s u := by
  obtain ⟨b, hb, rfl⟩ := h
  obtain ⟨d, hd, rfl⟩ := h'
  exact ⟨b ++ d, hb.append hd, by simp⟩

theorem trims_skipBlanks (s : List Char) : Trims s (skipBlanks s) := exists_skipBlanks s

theorem Trims.skipBlanks_eq {s r : List Char} (h : Trims s r) : skipBlanks s = skipBlanks r := by
  obtain ⟨b, hb, rfl⟩ := h
  exact skipBlanks_append hb r

theorem Trims.length_le {s r : List Char} (h : Trims s r) : r.length ≤ s.length := by
  obtain ⟨b, -, rfl⟩ := h
  simp

theorem IsToken.ne_nil {w s : List Char} (h : IsToken w s) (hw : w ≠ []) : s ≠ [] := by
  obtain ⟨b, -, rfl⟩ := h
  simp [hw]

/-- Blanks before a token belong to it. -/
theorem IsToken.prepend {w s b : List Char} (h : IsToken w s) (hb : IsBlanks b) :
    IsToken w (b ++ s) := by
  obtain ⟨d, hd, rfl⟩ := h
  exact ⟨b ++ d, hb.append hd, by simp⟩

/-! ## Blanks and names -/

theorem inRanges_iff (ranges : Array (Nat × Nat)) (n : Nat) :
    Text.inRanges ranges n = true ↔ ∃ r ∈ ranges.toList, r.1 ≤ n ∧ n ≤ r.2 := by
  rw [Text.inRanges, ← Array.any_toList, List.any_eq_true]
  simp only [Bool.and_eq_true, decide_eq_true_eq]

/-- No code point lies in two tables whose ranges are all apart. -/
theorem not_inRanges_of_apart {ranges others : Array (Nat × Nat)}
    (apart : ∀ r ∈ ranges.toList, ∀ o ∈ others.toList, r.2 < o.1 ∨ o.2 < r.1) {n : Nat}
    (h : Text.inRanges others n = true) : Text.inRanges ranges n = false := by
  obtain ⟨o, ho, hlo, hhi⟩ := (inRanges_iff others n).mp h
  refine Bool.eq_false_iff.mpr fun h' => ?_
  obtain ⟨r, hr, hlo', hhi'⟩ := (inRanges_iff ranges n).mp h'
  rcases apart r hr o ho with h | h <;> omega

theorem letters_apart_blanks : ∀ r ∈ Text.letterRanges.toList, ∀ o ∈ Text.blankRanges.toList,
    r.2 < o.1 ∨ o.2 < r.1 := by
  decide +kernel

theorem numbers_apart_blanks : ∀ r ∈ Text.numberRanges.toList, ∀ o ∈ Text.blankRanges.toList,
    r.2 < o.1 ∨ o.2 < r.1 := by
  decide +kernel

/-- No blank continues a name. -/
theorem isNamePart_of_isBlank {c : Char} (h : isBlank c = true) : isNamePart c = false := by
  by_cases hc : c.toNat < 0x80
  · have hblank : c = ' ' ∨ 9 ≤ c.toNat ∧ c.toNat ≤ 13 := by
      simpa [isBlank, hc] using h
    rcases hblank with rfl | ⟨-, hhi⟩
    · decide
    · have hpart : ∀ n ≤ 13, isNamePart (Char.ofNat n) = false := by decide
      rw [← Char.ofNat_toNat c]
      exact hpart c.toNat hhi
  · have hblank : Text.inRanges Text.blankRanges c.toNat = true := by simpa [isBlank, hc] using h
    have hletter := not_inRanges_of_apart letters_apart_blanks hblank
    have hnumber := not_inRanges_of_apart numbers_apart_blanks hblank
    have hmarks : c ≠ '_' ∧ c ≠ '$' := by
      constructor <;> rintro rfl <;> exact hc (by decide)
    simp [isNamePart, isLetter, isNumeric, hc, hletter, hnumber, hmarks.1, hmarks.2]

theorem isNamePart_of_isNameStart {c : Char} (h : isNameStart c = true) :
    isNamePart c = true := by
  simp only [isNameStart, isNamePart, Bool.or_eq_true] at h ⊢
  grind

theorem isBlank_of_isNameStart {c : Char} (h : isNameStart c = true) : isBlank c = false := by
  refine Bool.eq_false_iff.mpr fun hb => ?_
  have hpart := isNamePart_of_isNameStart h
  rw [isNamePart_of_isBlank hb] at hpart
  exact absurd hpart (by decide)

theorem IsDotted.exists_cons {n : List Char} (h : IsDotted n) :
    ∃ c r, n = c :: r ∧ isNameStart c = true := by
  cases h with
  | name start _ => exact ⟨_, _, rfl, start⟩
  | dot start _ _ => exact ⟨_, _, rfl, start⟩

/-! ## The next token -/

theorem eat?_eq_some {c : Char} {s r : List Char} :
    eat? c s = some r ↔ skipBlanks s = c :: r := by
  simp only [eat?]
  split
  · split <;> simp_all
  · simp_all

theorem eatArrow?_eq_some {s r : List Char} :
    eatArrow? s = some r ↔ skipBlanks s = '-' :: '>' :: r := by
  simp only [eatArrow?]
  split <;> simp_all

theorem isToken_of_skipBlanks {w s r : List Char} (h : skipBlanks s = w ++ r) :
    ∃ t, IsToken w t ∧ s = t ++ r := by
  obtain ⟨b, hb, hs⟩ := exists_skipBlanks s
  exact ⟨b ++ w, ⟨b, hb, rfl⟩, by rw [hs, h]; simp⟩

theorem IsToken.skipBlanks_eq {c : Char} {w t : List Char} (h : IsToken (c :: w) t)
    (hc : isBlank c = false) (r : List Char) : skipBlanks (t ++ r) = c :: w ++ r := by
  obtain ⟨b, hb, rfl⟩ := h
  rw [List.append_assoc, skipBlanks_append hb]
  exact skipBlanks_cons hc _

theorem eat?_token {c : Char} {t : List Char} (h : IsToken [c] t) (hc : isBlank c = false)
    (r : List Char) : eat? c (t ++ r) = some r :=
  eat?_eq_some.mpr (h.skipBlanks_eq hc r)

theorem eatArrow?_token {t : List Char} (h : IsToken ['-', '>'] t) (r : List Char) :
    eatArrow? (t ++ r) = some r :=
  eatArrow?_eq_some.mpr (h.skipBlanks_eq (by decide) r)

theorem length_lt_of_eat? {c : Char} {s r : List Char} (h : eat? c s = some r) :
    r.length < s.length := by
  have hle := (trims_skipBlanks s).length_le
  rw [eat?_eq_some.mp h, List.length_cons] at hle
  omega

/-- What is left of a text is nothing but blanks, or starts with one of some characters. -/
def Follows (cs s : List Char) : Prop := ∀ c r, skipBlanks s = c :: r → c ∈ cs

theorem Follows.mono {cs ds s : List Char} (h : Follows cs s) (hsub : cs ⊆ ds) :
    Follows ds s :=
  fun c r hc => hsub (h c r hc)

theorem Follows.of_trims {cs s r : List Char} (h : Follows cs s) (ht : Trims s r) :
    Follows cs r :=
  fun c u hc => h c u (ht.skipBlanks_eq.trans hc)

theorem IsToken.follows {c : Char} {w t cs : List Char} (h : IsToken (c :: w) t)
    (hc : isBlank c = false) (hmem : c ∈ cs) (r : List Char) : Follows cs (t ++ r) := by
  intro d u hd
  rw [h.skipBlanks_eq hc] at hd
  obtain ⟨rfl, -⟩ := List.cons.inj hd
  exact hmem

theorem Follows.eat?_eq_none {c : Char} {cs s : List Char} (h : Follows cs s) (hc : c ∉ cs) :
    eat? c s = none :=
  Option.eq_none_iff_forall_ne_some.mpr fun r hr => hc (h c r (eat?_eq_some.mp hr))

theorem Follows.eatArrow?_eq_none {cs s : List Char} (h : Follows cs s) (hc : '-' ∉ cs) :
    eatArrow? s = none :=
  Option.eq_none_iff_forall_ne_some.mpr fun _ hr => hc (h '-' _ (eatArrow?_eq_some.mp hr))

end PklAnalysis.TypeExpr
