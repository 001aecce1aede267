import PklAnalysis.Proofs.Text.Cuts
import PklAnalysis.Proofs.TypeExpr.Grammar

/-!
# What the reader accepts is in the grammar

Each rule of the reader takes the text of its symbol off the front of its input.  What is left
may have lost some blanks, since a search for a question mark skips the blanks before it whether
or not it finds one.

A type stops only where neither `?` nor `|` follows.  So a function, whose result is a type, ends
every list of alternatives it stands in, as the grammar says.
-/

namespace PklAnalysis.TypeExpr

open Text (isBlank)

/-- A text starts with what `P` describes and goes on, blanks apart, with `r`. -/
def Takes (P : List Char → Prop) (s r : List Char) : Prop :=
  ∃ u v, s = u ++ v ∧ P u ∧ Trims v r

theorem Takes.intro {P : List Char → Prop} {u : List Char} (h : P u) (r : List Char) :
    Takes P (u ++ r) r :=
  ⟨u, r, rfl, h, Trims.refl r⟩

theorem Takes.trim {P : List Char → Prop} {s r r' : List Char} (h : Takes P s r)
    (ht : Trims r r') : Takes P s r' := by
  obtain ⟨u, v, rfl, hu, hv⟩ := h
  exact ⟨u, v, rfl, hu, hv.trans ht⟩

/-- The token after what was taken, with the blanks that were left before it. -/
theorem Takes.next {P : List Char → Prop} {s r w r' : List Char} (h : Takes P s r)
    (hw : skipBlanks r = w ++ r') : ∃ u t, s = u ++ (t ++ r') ∧ P u ∧ IsToken w t := by
  obtain ⟨u, v, rfl, hu, hv⟩ := h
  obtain ⟨t, ht, rfl⟩ := isToken_of_skipBlanks (hv.skipBlanks_eq.trans hw)
  exact ⟨u, t, rfl, hu, ht⟩

theorem Takes.length_le {P : List Char → Prop} {s r : List Char} (h : Takes P s r) :
    r.length ≤ s.length := by
  obtain ⟨u, v, rfl, -, hv⟩ := h
  have := hv.length_le
  simp only [List.length_append]
  omega

/-! ## Tokens -/

theorem IsDotted.insert {c d : Char} {s : List Char} (h : IsDotted (c :: s))
    (hd : isNamePart d = true) : IsDotted (c :: d :: s) := by
  cases h with
  | name start parts => exact .name start (by simpa [hd] using parts)
  | @dot _ s r start parts rest =>
    exact .dot (s := d :: s) start (by simpa [hd] using parts) rest

/-- The tail of a name continues every start of a name. -/
theorem nameTail_sound {s cs r : List Char} (h : nameTail s = .ok (cs, r)) :
    s = cs ++ r ∧ ∀ c, isNameStart c = true → IsDotted (c :: cs) := by
  induction s using nameTail.induct generalizing cs r with
  | case1 d s hd ih =>
    simp only [nameTail, hd, if_true] at h
    obtain ⟨⟨ds, r'⟩, hrest, heq⟩ := map_eq_ok.mp h
    obtain ⟨rfl, rfl⟩ := Prod.mk.inj heq
    obtain ⟨rfl, hdotted⟩ := ih hrest
    exact ⟨rfl, fun c hc => .dot (s := []) hc (by simp) (hdotted d hd)⟩
  | case2 d s hd => simp [nameTail, hd] at h
  | case3 => simp [nameTail] at h
  | case4 d s hdot hlast hd ih =>
    rw [nameTail.eq_3 _ _ hdot hlast, if_pos hd] at h
    obtain ⟨⟨ds, r'⟩, hrest, heq⟩ := map_eq_ok.mp h
    obtain ⟨rfl, rfl⟩ := Prod.mk.inj heq
    obtain ⟨rfl, hdotted⟩ := ih hrest
    exact ⟨rfl, fun c hc => (hdotted c hc).insert hd⟩
  | case5 d s hdot hlast hd =>
    rw [nameTail.eq_3 _ _ hdot hlast, if_neg hd] at h
    obtain ⟨rfl, rfl⟩ := Prod.mk.inj (Except.ok.inj h)
    exact ⟨rfl, fun c hc => .name hc (by simp)⟩
  | case6 =>
    obtain ⟨rfl, rfl⟩ := Prod.mk.inj (Except.ok.inj h)
    exact ⟨rfl, fun c hc => .name hc (by simp)⟩

theorem literalTail_sound {s cs r : List Char} (h : literalTail s = .ok (cs, r)) :
    ∃ body, s = body ++ '"' :: r ∧ IsLiteralBody body cs := by
  induction s using literalTail.induct generalizing cs r with
  | case1 s =>
    simp only [literalTail, Except.ok.injEq, Prod.mk.injEq] at h
    obtain ⟨rfl, rfl⟩ := h
    exact ⟨[], rfl, .nil⟩
  | case2 d s ih =>
    simp only [literalTail] at h
    obtain ⟨⟨ds, r'⟩, hrest, heq⟩ := map_eq_ok.mp h
    obtain ⟨rfl, rfl⟩ := Prod.mk.inj heq
    obtain ⟨body, rfl, hbody⟩ := ih hrest
    exact ⟨'\\' :: d :: body, rfl, hbody.escaped⟩
  | case3 => simp [literalTail] at h
  | case4 d s hquote hescape hlast ih =>
    rw [literalTail.eq_4 _ _ hquote hescape hlast] at h
    obtain ⟨⟨ds, r'⟩, hrest, heq⟩ := map_eq_ok.mp h
    obtain ⟨rfl, rfl⟩ := Prod.mk.inj heq
    obtain ⟨body, rfl, hbody⟩ := ih hrest
    have hne : d ≠ '\\' := by
      rintro rfl
      cases body with
      | nil => exact hescape _ _ rfl rfl
      | cons e body => exact hescape _ _ rfl rfl
    exact ⟨d :: body, rfl, hbody.plain (fun hd => hquote hd) hne⟩
  | case5 => simp [literalTail] at h

/-- Blanks before question marks belong to the first of them, or are left if there is none. -/
theorem takes_marks_of_trims {n : Nat} {s r u : List Char} (ht : Trims s r)
    (h : Takes (AreMarks n) r u) : Takes (AreMarks n) s u := by
  obtain ⟨b, hb, rfl⟩ := ht
  obtain ⟨q, v, rfl, hmarks, hv⟩ := h
  cases hmarks with
  | none => exact ⟨[], b ++ v, rfl, .none, Trims.trans ⟨b, hb, rfl⟩ hv⟩
  | @more n t q mark rest =>
    exact ⟨(b ++ t) ++ q, v, by simp, .more (mark.prepend hb) rest, hv⟩

theorem nullMarks_sound (s : List Char) :
    Takes (AreMarks (nullMarks s).1) s (nullMarks s).2 ∧ eat? '?' (nullMarks s).2 = none := by
  induction s using nullMarks.induct with
  | case1 s ih =>
    obtain ⟨⟨u, v, rfl, hmarks, htrim⟩, hnone⟩ := ih
    exact ⟨⟨'?' :: u, v, rfl, .more (q := ['?']) ⟨[], IsBlanks.nil, rfl⟩ hmarks, htrim⟩, hnone⟩
  | case2 d s hmark hblank ih =>
    rw [nullMarks.eq_2 _ _ hmark, if_pos hblank]
    exact ⟨takes_marks_of_trims ⟨[d], by simpa [IsBlanks] using hblank, rfl⟩ ih.1, ih.2⟩
  | case3 d s hmark hblank =>
    rw [nullMarks.eq_2 _ _ hmark, if_neg hblank]
    refine ⟨Takes.intro AreMarks.none _, ?_⟩
    have hskip : skipBlanks (d :: s) = d :: s := skipBlanks_cons (by simpa using hblank) s
    simp only [eat?, hskip]
    exact if_neg hmark
  | case4 => exact ⟨Takes.intro AreMarks.none _, rfl⟩

/-! ## Rules -/

/-- Whatever a reader reads is a type that neither `?` nor `|` could continue. -/
def Sound (read : List Char → Except Failure (TypeExpr × List Char)) : Prop :=
  ∀ s a r, read s = .ok (a, r) →
    Takes (IsType · a) s r ∧ eat? '?' r = none ∧ eat? '|' r = none

/-- What was taken follows a rule, or it is a function that nothing could continue. -/
def TakesRule (rule : List Char → TypeExpr → Prop) (s : List Char) (a : TypeExpr)
    (r : List Char) : Prop :=
  Takes (rule · a) s r ∨
    Takes (IsFunction · a) s r ∧ eat? '?' r = none ∧ eat? '|' r = none

theorem TakesRule.length_le {rule : List Char → TypeExpr → Prop} {s r : List Char}
    {a : TypeExpr} (h : TakesRule rule s a r) : r.length ≤ s.length := by
  rcases h with h | ⟨h, -⟩ <;> exact h.length_le

section

variable {nested : List Char → Except Failure (TypeExpr × List Char)} (sound : Sound nested)

include sound

theorem Sound.itemsUpTo {close : Char} {n : Nat} {s r : List Char} {as : List TypeExpr}
    (h : itemsUpTo nested close n s = .ok (as, r)) :
    ∃ u right, s = u ++ (right ++ r) ∧ AreTypes u as ∧ IsToken [close] right := by
  induction n generalizing s r as with
  | zero => simp [TypeExpr.itemsUpTo] at h
  | succ n ih =>
    rw [TypeExpr.itemsUpTo] at h
    obtain ⟨⟨a, r₁⟩, hfirst, hthen⟩ := bind_eq_ok.mp h
    obtain ⟨htakes, -, -⟩ := sound s a r₁ hfirst
    cases hcomma : eat? ',' r₁ with
    | some r₂ =>
      simp only [hcomma] at hthen
      obtain ⟨⟨bs, r₃⟩, hrest, heq⟩ := bind_eq_ok.mp hthen
      obtain ⟨rfl, rfl⟩ := Prod.mk.inj (Except.ok.inj heq)
      obtain ⟨u, comma, rfl, htype, hsep⟩ := htakes.next (w := [',']) (eat?_eq_some.mp hcomma)
      obtain ⟨v, right, rfl, hrest, hclose⟩ := ih hrest
      exact ⟨u ++ (comma ++ v), right, by simp, .more htype hsep hrest, hclose⟩
    | none =>
      cases hclose : eat? close r₁ with
      | none => simp [hcomma, hclose] at hthen
      | some r₂ =>
        simp only [hcomma, hclose] at hthen
        obtain ⟨rfl, rfl⟩ := Prod.mk.inj (Except.ok.inj hthen)
        obtain ⟨u, right, rfl, htype, hright⟩ :=
          htakes.next (w := [close]) (eat?_eq_some.mp hclose)
        exact ⟨u, right, rfl, .one htype, hright⟩

theorem Sound.listTail {close : Char} {s r : List Char} {as : List TypeExpr}
    (h : listTail nested close s = .ok (as, r)) :
    ∃ u, s = u ++ r ∧ IsListUpTo close u as := by
  rw [TypeExpr.listTail] at h
  cases hclose : eat? close s with
  | some r' =>
    simp only [hclose] at h
    obtain ⟨rfl, rfl⟩ := Prod.mk.inj (Except.ok.inj h)
    obtain ⟨right, hright, rfl⟩ :=
      isToken_of_skipBlanks (w := [close]) (eat?_eq_some.mp hclose)
    exact ⟨right, rfl, .empty hright⟩
  | none =>
    simp only [hclose] at h
    obtain ⟨u, right, rfl, htypes, hright⟩ := sound.itemsUpTo h
    exact ⟨u ++ right, by simp, .types htypes hright⟩

theorem Sound.parenTail {left s r : List Char} {a : TypeExpr} (hleft : IsToken ['('] left)
    (h : parenTail nested s = .ok (a, r)) : TakesRule IsAtom (left ++ s) a r := by
  rw [TypeExpr.parenTail] at h
  obtain ⟨⟨items, r₁⟩, hitems, hthen⟩ := bind_eq_ok.mp h
  obtain ⟨u, rfl, hlist⟩ := sound.listTail hitems
  cases harrow : eatArrow? r₁ with
  | some r₂ =>
    simp only [harrow] at hthen
    obtain ⟨⟨result, r₃⟩, hresult, heq⟩ := bind_eq_ok.mp hthen
    obtain ⟨rfl, rfl⟩ := Prod.mk.inj (Except.ok.inj heq)
    obtain ⟨⟨v, w, rfl, htype, htrim⟩, hstops⟩ := sound r₂ result r₃ hresult
    obtain ⟨arrow, hsep, rfl⟩ :=
      isToken_of_skipBlanks (w := ['-', '>']) (eatArrow?_eq_some.mp harrow)
    exact .inr ⟨⟨left ++ (u ++ (arrow ++ v)), w, by simp, .arrow hleft hlist hsep htype, htrim⟩,
      hstops⟩
  | none =>
    simp only [harrow] at hthen
    split at hthen
    next b =>
      obtain ⟨rfl, rfl⟩ := Prod.mk.inj (Except.ok.inj hthen)
      cases hlist with
      | types htypes hright =>
        cases htypes with
        | one htype => exact .inl ⟨_, r₁, by simp, .group hleft htype hright, Trims.refl r₁⟩
        | more _ _ hrest => cases hrest
    next => simp at hthen

theorem Sound.atom {s r : List Char} {a : TypeExpr} (h : atom nested s = .ok (a, r)) :
    TakesRule IsAtom s a r := by
  obtain ⟨b, hb, hs⟩ := exists_skipBlanks s
  rw [TypeExpr.atom] at h
  split at h
  next u hu =>
    rw [hs, hu, show b ++ '(' :: u = (b ++ ['(']) ++ u by simp]
    exact sound.parenTail ⟨b, hb, rfl⟩ h
  next u hu =>
    obtain ⟨⟨cs, r'⟩, htail, heq⟩ := map_eq_ok.mp h
    obtain ⟨rfl, rfl⟩ := Prod.mk.inj heq
    obtain ⟨body, rfl, hbody⟩ := literalTail_sound htail
    exact .inl ⟨(b ++ ['"']) ++ (body ++ ['"']), r', by rw [hs, hu]; simp,
      .literal ⟨b, hb, rfl⟩ hbody, Trims.refl r'⟩
  next c u _ _ hu =>
    split at h
    next hstart =>
      obtain ⟨⟨cs, r₁⟩, htail, hthen⟩ := bind_eq_ok.mp h
      obtain ⟨rfl, hdotted⟩ := nameTail_sound htail
      have hname := hdotted c hstart
      cases hopen : eat? '<' r₁ with
      | some r₂ =>
        simp only [hopen] at hthen
        obtain ⟨⟨args, r₃⟩, hargs, heq⟩ := bind_eq_ok.mp hthen
        obtain ⟨rfl, rfl⟩ := Prod.mk.inj (Except.ok.inj heq)
        obtain ⟨v, rfl, hlist⟩ := sound.listTail hargs
        obtain ⟨left, hleft, rfl⟩ :=
          isToken_of_skipBlanks (w := ['<']) (eat?_eq_some.mp hopen)
        exact .inl ⟨(b ++ (c :: cs)) ++ (left ++ v), r₃, by rw [hs, hu]; simp,
          .applied hname ⟨b, hb, rfl⟩ hleft hlist, Trims.refl r₃⟩
      | none =>
        simp only [hopen] at hthen
        obtain ⟨rfl, rfl⟩ := Prod.mk.inj (Except.ok.inj hthen)
        exact .inl ⟨b ++ (c :: cs), r₁, by rw [hs, hu]; simp, .name hname ⟨b, hb, rfl⟩,
          Trims.refl r₁⟩
    next => simp at h
  next => simp at h

theorem Sound.postfixed {s r : List Char} {a : TypeExpr}
    (h : postfixed nested s = .ok (a, r)) :
    TakesRule IsPostfixed s a r ∧ eat? '?' r = none := by
  rw [TypeExpr.postfixed] at h
  obtain ⟨⟨b, r₁⟩, hatom, heq⟩ := bind_eq_ok.mp h
  obtain ⟨rfl, rfl⟩ := Prod.mk.inj (Except.ok.inj heq)
  obtain ⟨hmarks, hnone⟩ := nullMarks_sound r₁
  refine ⟨?_, hnone⟩
  rcases sound.atom hatom with hrule | ⟨hfunction, hmark, hbar⟩
  · obtain ⟨u, v, rfl, hu, hv⟩ := hrule
    obtain ⟨q, w, rfl, hq, hw⟩ := takes_marks_of_trims hv hmarks
    exact .inl ⟨u ++ q, w, by simp, .marks hu hq, hw⟩
  · -- no question mark follows a function, so only blanks are skipped
    obtain ⟨q, w, rfl, hq, hw⟩ := hmarks
    generalize (nullMarks (q ++ w)).1 = n at hq ⊢
    cases hq with
    | none =>
      refine .inr ⟨hfunction.trim hw, hnone, ?_⟩
      rw [← hbar]
      simp only [eat?, hw.skipBlanks_eq, List.nil_append]
    | more mark _ =>
      rw [List.append_assoc, eat?_token mark (by decide)] at hmark
      cases hmark

/-- The alternatives after one that was read already. -/
theorem Sound.moreAlternatives {n : Nat} {s t r : List Char} {a : TypeExpr} {as : List TypeExpr}
    (hfirst : TakesRule IsPostfixed s a t) (hmark : eat? '?' t = none) (hn : t.length ≤ n)
    (h : moreAlternatives nested n t = .ok (as, r)) :
    (Takes (AreAlternatives · (a :: as)) s r ∨ as = [] ∧ Takes (IsFunction · a) s r) ∧
      eat? '?' r = none ∧ eat? '|' r = none := by
  induction n generalizing s t a as with
  | zero =>
    obtain rfl : t = [] := List.length_eq_zero_iff.mp (Nat.le_zero.mp hn)
    obtain ⟨rfl, rfl⟩ := Prod.mk.inj (Except.ok.inj h)
    refine ⟨?_, rfl, rfl⟩
    rcases hfirst with ⟨u, v, rfl, hu, hv⟩ | ⟨hfunction, -, -⟩
    · exact .inl ⟨u, v, rfl, .one hu, hv⟩
    · exact .inr ⟨rfl, hfunction⟩
  | succ n ih =>
    rw [TypeExpr.moreAlternatives] at h
    cases hbar : eat? '|' t with
    | none =>
      simp only [hbar] at h
      obtain ⟨rfl, rfl⟩ := Prod.mk.inj (Except.ok.inj h)
      refine ⟨?_, hmark, hbar⟩
      rcases hfirst with ⟨u, v, rfl, hu, hv⟩ | ⟨hfunction, -, -⟩
      · exact .inl ⟨u, v, rfl, .one hu, hv⟩
      · exact .inr ⟨rfl, hfunction⟩
    | some r₁ =>
      simp only [hbar] at h
      obtain ⟨⟨b, r₂⟩, hb, hthen⟩ := bind_eq_ok.mp h
      obtain ⟨⟨bs, r₃⟩, hbs, heq⟩ := bind_eq_ok.mp hthen
      obtain ⟨rfl, rfl⟩ := Prod.mk.inj (Except.ok.inj heq)
      obtain ⟨hsecond, hmark₂⟩ := sound.postfixed hb
      -- a function would have taken the bar into its result
      have hrule : Takes (IsPostfixed · a) s t := by
        rcases hfirst with hrule | ⟨-, -, hstop⟩
        · exact hrule
        · rw [hbar] at hstop
          cases hstop
      obtain ⟨u, bar, rfl, hu, hsep⟩ := hrule.next (w := ['|']) (eat?_eq_some.mp hbar)
      have hlen : r₂.length ≤ n := by
        have := length_lt_of_eat? hbar
        have := hsecond.length_le
        omega
      obtain ⟨hrest, hstops⟩ := ih hsecond hmark₂ hlen hbs
      refine ⟨.inl ?_, hstops⟩
      rcases hrest with ⟨v, w, rfl, hv, hw⟩ | ⟨rfl, v, w, rfl, hv, hw⟩
      · exact ⟨u ++ (bar ++ v), w, by simp, .more hu hsep hv, hw⟩
      · exact ⟨u ++ (bar ++ v), w, by simp, .function hu hsep hv, hw⟩

theorem Sound.type : Sound (type nested) := by
  intro s a r h
  rw [TypeExpr.type] at h
  obtain ⟨⟨b, r₁⟩, hb, hthen⟩ := bind_eq_ok.mp h
  obtain ⟨⟨bs, r₂⟩, hbs, heq⟩ := bind_eq_ok.mp hthen
  obtain ⟨rfl, rfl⟩ := Prod.mk.inj (Except.ok.inj heq)
  obtain ⟨hfirst, hmark⟩ := sound.postfixed hb
  obtain ⟨htakes, hstops⟩ := sound.moreAlternatives hfirst hmark (Nat.le_refl _) hbs
  refine ⟨?_, hstops⟩
  rcases htakes with ⟨u, v, rfl, hu, hv⟩ | ⟨rfl, u, v, rfl, hu, hv⟩
  · exact ⟨u, v, rfl, .alternatives hu, hv⟩
  · exact ⟨u, v, rfl, .function hu, hv⟩

end

theorem sound_typeWithin (n : Nat) : Sound (typeWithin n) := by
  induction n with
  | zero => intro s a r h; simp [typeWithin] at h
  | succ n ih => exact ih.type

/-- What `parse` returns is the tree of its text. -/
theorem derives_of_parse {input : String} {a : TypeExpr} (h : parse input = .ok a) :
    Derives input.toList a := by
  simp only [parse] at h
  split at h
  next => simp at h
  next b r hread =>
    split at h
    next hend =>
      obtain rfl := Except.ok.inj h
      obtain ⟨⟨u, v, hs, htype, htrim⟩, -, -⟩ := sound_typeWithin _ _ _ _ hread
      obtain ⟨d, hd, hv⟩ := exists_skipBlanks v
      rw [htrim.skipBlanks_eq, hend, List.append_nil] at hv
      exact ⟨u, v, htype, hv ▸ hd, hs⟩
    next => simp at h

end PklAnalysis.TypeExpr
