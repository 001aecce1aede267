import PklAnalysis.Proofs.TypeExpr.RoundTrip

/-!
# When the text of an annotation is not read back

A text that the grammar gives some tree holds a backslash before each quote and each backslash of
the tree's literals, besides those that its names and literals hold themselves.  The text that
is written for the tree holds only the latter.  So it cannot be a text of that tree once a
literal holds a quote or a backslash.
-/

namespace PklAnalysis.TypeExpr

mutual

/-- How many quotes and backslashes the literals hold. -/
def specials : TypeExpr → Nat
  | .named _ args => specialsOfAll args
  | .nullable inner => specials inner
  | .union members => specialsOfAll members
  | .function params result => specialsOfAll params + specials result
  | .literal text => text.toList.countP isSpecial
  | .unknown | .nothing | .enclosingModule => 0

/-- How many quotes and backslashes the literals of a list hold. -/
def specialsOfAll : List TypeExpr → Nat
  | [] => 0
  | a :: as => specials a + specialsOfAll as

end

mutual

theorem isClean_of_specials : ∀ a : TypeExpr, specials a = 0 → a.isClean = true
  | .named _ args, h => isCleanAll_of_specials args h
  | .nullable inner, h => isClean_of_specials inner h
  | .union members, h => isCleanAll_of_specials members h
  | .function params result, h => by
    obtain ⟨hparams, hresult⟩ := Nat.add_eq_zero_iff.mp h
    simp [isClean, isCleanAll_of_specials params hparams, isClean_of_specials result hresult]
  | .literal text, h => by
    have hnone := List.countP_eq_zero.mp h
    simpa [isClean] using hnone
  | .unknown, _ | .nothing, _ | .enclosingModule, _ => rfl

theorem isCleanAll_of_specials : ∀ as : List TypeExpr, specialsOfAll as = 0 → isCleanAll as = true
  | [], _ => rfl
  | a :: as, h => by
    obtain ⟨hfirst, hrest⟩ := Nat.add_eq_zero_iff.mp h
    simp [isCleanAll, isClean_of_specials a hfirst, isCleanAll_of_specials as hrest]

end

/-! ## Counting backslashes -/

/-- The backslashes that a text for a tree holds at least. -/
def weight (a : TypeExpr) : Nat := specials a + (chars a).count '\\'

/-- The backslashes that the texts for some trees hold at least. -/
def weightOfAll : List TypeExpr → Nat
  | [] => 0
  | a :: as => weight a + weightOfAll as

theorem count_enclosed (parens : Bool) (s : List Char) :
    (enclosed parens s).count '\\' = s.count '\\' := by
  cases parens <;> simp [enclosed]

theorem count_separated : ∀ as : List TypeExpr,
    specialsOfAll as + (separated as).count '\\' = weightOfAll as
  | [] => rfl
  | [a] => by simp [specialsOfAll, weightOfAll, weight, separated]
  | a :: b :: as => by
    have hrest := count_separated (b :: as)
    have hcount : (separated (a :: b :: as)).count '\\' =
        (chars a).count '\\' + (separated (b :: as)).count '\\' := by
      show (chars a ++ ',' :: ' ' :: separated (b :: as)).count '\\' = _
      simp
    simp only [specialsOfAll, weightOfAll, weight] at hrest ⊢
    omega

theorem count_alternatives : ∀ as : List TypeExpr,
    specialsOfAll as + (alternatives as).count '\\' = weightOfAll as
  | [] => rfl
  | [a] => by
    have hcount : (alternatives [a]).count '\\' = (chars a).count '\\' :=
      count_enclosed a.isFunction (chars a)
    simp [specialsOfAll, weightOfAll, weight, hcount]
  | a :: b :: as => by
    have hrest := count_alternatives (b :: as)
    have hcount : (alternatives (a :: b :: as)).count '\\' =
        (chars a).count '\\' + (alternatives (b :: as)).count '\\' := by
      show (enclosed a.isFunction (chars a) ++ '|' :: alternatives (b :: as)).count '\\' = _
      simp [count_enclosed]
    simp only [specialsOfAll, weightOfAll, weight] at hrest ⊢
    omega

theorem weight_named (name : String) (args : List TypeExpr) :
    weight (.named name args) = name.toList.count '\\' + weightOfAll args := by
  have hcount : (chars (.named name args)).count '\\' =
      name.toList.count '\\' + (separated args).count '\\' := by
    cases args with
    | nil => rfl
    | cons a as =>
      show (name.toList ++ '<' :: (separated (a :: as) ++ ['>'])).count '\\' = _
      simp
  have hargs := count_separated args
  simp only [weight, specials, hcount]
  omega

theorem weight_ofName_le (n : List Char) (args : List TypeExpr) :
    weight (ofName (String.ofList n) args) ≤ n.count '\\' + weightOfAll args := by
  have hnamed : weight (.named (String.ofList n) args) = n.count '\\' + weightOfAll args := by
    rw [weight_named, String.toList_ofList]
  cases args with
  | nil =>
    -- a keyword has no backslash at all
    rw [ofName]
    split
    · exact Nat.zero_le _
    split
    · exact Nat.zero_le _
    split
    · exact Nat.zero_le _
    exact Nat.le_of_eq hnamed
  | cons a as => exact Nat.le_of_eq hnamed

theorem weight_nullable (a : TypeExpr) : weight (.nullable a) = weight a := by
  have hcount : (chars (.nullable a)).count '\\' = (chars a).count '\\' := by
    show (enclosed a.isCompound (chars a) ++ ['?']).count '\\' = _
    simp [count_enclosed]
  simp only [weight, specials, hcount]

theorem weight_marked (a : TypeExpr) (n : Nat) : weight (marked a n) = weight a := by
  induction n with
  | zero => rfl
  | succ n ih => rw [marked, weight_nullable, ih]

theorem weight_ofAlternatives (a : TypeExpr) (as : List TypeExpr) :
    weight (ofAlternatives a as) = weightOfAll (a :: as) := by
  cases as with
  | nil => simp [ofAlternatives, weightOfAll]
  | cons b as => exact count_alternatives (a :: b :: as)

theorem weight_function (params : List TypeExpr) (result : TypeExpr) :
    weight (.function params result) = weightOfAll params + weight result := by
  have hcount : (chars (.function params result)).count '\\' =
      (separated params).count '\\' + (chars result).count '\\' := by
    show ('(' :: (separated params ++ (") -> ".toList ++ chars result))).count '\\' = _
    simp
  have hparams := count_separated params
  simp only [weight, specials, hcount]
  omega

theorem weight_literal (t : List Char) :
    weight (.literal (String.ofList t)) = t.countP isSpecial + t.count '\\' := by
  have hcount : (chars (.literal (String.ofList t))).count '\\' = t.count '\\' := by
    show ('"' :: ((String.ofList t).toList ++ ['"'])).count '\\' = _
    simp
  rw [weight, hcount, specials, String.toList_ofList]

theorem IsToken.count_le {w s : List Char} (h : IsToken w s) : w.count '\\' ≤ s.count '\\' := by
  obtain ⟨b, -, rfl⟩ := h
  simp

theorem IsLiteralBody.weight_le {s t : List Char} (h : IsLiteralBody s t) :
    t.countP isSpecial + t.count '\\' ≤ s.count '\\' := by
  induction h with
  | nil => simp
  | @plain c s t quote backslash _ ih =>
    simpa [isSpecial, quote, backslash] using ih
  | @escaped c s t _ ih =>
    by_cases hspecial : isSpecial c = true
    · simp only [List.countP_cons, List.count_cons, hspecial]
      simp; omega
    · have hc : c ≠ '\\' := by
        rintro rfl
        exact hspecial rfl
      simp only [List.countP_cons, List.count_cons, hspecial]
      simp; omega

mutual

theorem IsType.weight_le {s : List Char} {a : TypeExpr} :
    IsType s a → weight a ≤ s.count '\\'
  | .function h => h.weight_le
  | .alternatives h => by
    rw [weight_ofAlternatives]
    exact h.weight_le

theorem AreAlternatives.weight_le {s : List Char} {as : List TypeExpr} :
    AreAlternatives s as → weightOfAll as ≤ s.count '\\'
  | .one h => by simpa [weightOfAll] using h.weight_le
  | .function h _ last => by
    have hfirst := h.weight_le
    have hlast := last.weight_le
    simp only [weightOfAll, List.count_append]
    omega
  | .more h _ rest => by
    have hfirst := h.weight_le
    have hrest := rest.weight_le
    simp only [weightOfAll, List.count_append] at hrest ⊢
    omega

theorem IsFunction.weight_le {s : List Char} {a : TypeExpr} :
    IsFunction s a → weight a ≤ s.count '\\'
  | .arrow _ items _ h => by
    have hitems := items.weight_le
    have hresult := h.weight_le
    simp only [weight_function, List.count_append]
    omega

theorem IsPostfixed.weight_le {s : List Char} {a : TypeExpr} :
    IsPostfixed s a → weight a ≤ s.count '\\'
  | .marks h _ => by
    have hatom := h.weight_le
    simp only [weight_marked, List.count_append]
    omega

theorem IsAtom.weight_le {s : List Char} {a : TypeExpr} : IsAtom s a → weight a ≤ s.count '\\'
  | .group _ h _ => by
    have htype := h.weight_le
    simp only [List.count_append]
    omega
  | .literal _ body => by
    have hbody := body.weight_le
    simp only [weight_literal, List.count_append]
    omega
  | @IsAtom.name _ n _ h => by
    have hname := weight_ofName_le n []
    have htoken := h.count_le
    simp only [weightOfAll] at hname
    omega
  | @IsAtom.applied _ n _ _ args _ h _ items => by
    have hname := weight_ofName_le n args
    have htoken := h.count_le
    have hitems := items.weight_le
    simp only [List.count_append]
    omega

theorem IsListUpTo.weight_le {close : Char} {s : List Char} {as : List TypeExpr} :
    IsListUpTo close s as → weightOfAll as ≤ s.count '\\'
  | .empty _ => Nat.zero_le _
  | .types items _ => by
    have hitems := items.weight_le
    simp only [List.count_append]
    omega

theorem AreTypes.weight_le {s : List Char} {as : List TypeExpr} :
    AreTypes s as → weightOfAll as ≤ s.count '\\'
  | .one h => by simpa [weightOfAll] using h.weight_le
  | .more h _ rest => by
    have hfirst := h.weight_le
    have hrest := rest.weight_le
    simp only [weightOfAll, List.count_append] at hrest ⊢
    omega

end

/-- The text of a tree is read as that tree exactly when no union is a member of a union and no
string literal holds a quote or a backslash. -/
theorem parse_text_eq_ok_iff {a : TypeExpr} (legible : Legible a) :
    parse a.text = .ok a ↔ a.isFlat = true ∧ a.isClean = true := by
  constructor
  · intro hread
    obtain ⟨s, b, htype, -, hs⟩ := derives_of_parse hread
    have hweight := htype.weight_le
    have hclean : a.isClean = true := by
      apply isClean_of_specials
      have hcount : (chars a).count '\\' = s.count '\\' + b.count '\\' := by
        rw [← List.count_append, ← hs, text, String.toList_ofList]
      have hspecials : weight a = specials a + (chars a).count '\\' := rfl
      omega
    have hflat := parse_text_eq_flattened legible hclean
    rw [hread] at hflat
    exact ⟨(flattened_eq_self_iff a).mp (Except.ok.inj hflat).symm, hclean⟩
  · rintro ⟨hflat, hclean⟩
    rw [parse_text_eq_flattened legible hclean, (flattened_eq_self_iff a).mpr hflat]

end PklAnalysis.TypeExpr
