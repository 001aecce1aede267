import PklAnalysis.Proofs.TypeExpr.Soundness

/-!
# What the grammar derives is read

The reader is greedy: it goes on wherever the next character allows it.  So each rule is stated
with what may follow its text, and the text is what the reader takes off the front because none
of those characters lets it go on.

The bound on the nesting is no obstacle: every rule is given texts shorter than the one it
started from, and the bound of `parse` is the length of the whole text.
-/

namespace PklAnalysis.TypeExpr

open Text (isBlank)

/-- The characters that may follow a type inside an annotation. -/
def afterType : List Char := [',', ')', '>']

/-- The characters that may follow a type without alternatives. -/
def afterPostfixed : List Char := '|' :: afterType

/-- The characters that may follow a type without question marks. -/
def afterAtom : List Char := '?' :: afterPostfixed

/-- The characters that may follow a name. -/
def afterName : List Char := '<' :: afterAtom

theorem afterType_subset : afterType ⊆ afterPostfixed := List.subset_cons_self _ _

theorem afterPostfixed_subset : afterPostfixed ⊆ afterAtom := List.subset_cons_self _ _

theorem afterAtom_subset : afterAtom ⊆ afterName := List.subset_cons_self _ _

theorem stops_of_mem_afterName {c : Char} (h : c ∈ afterName) :
    isNamePart c = false ∧ c ≠ '.' := by
  have hall : afterName.all (fun d => !isNamePart d && d != '.') = true := by decide
  simpa using List.all_eq_true.mp hall c h

theorem not_start_of_mem_afterType {c : Char} (h : c ∈ afterType) :
    c ≠ '(' ∧ c ≠ '"' ∧ isNameStart c = false := by
  have hall : afterType.all (fun d => d != '(' && (d != '"' && !isNameStart d)) = true := by decide
  simpa using List.all_eq_true.mp hall c h

theorem isBlank_of_mem_afterType {c : Char} (h : c ∈ afterType) : isBlank c = false := by
  have hall : afterType.all (fun d => !isBlank d) = true := by decide
  simpa using List.all_eq_true.mp hall c h

/-! ## Tokens -/

theorem Trims.eat?_eq {s r : List Char} (h : Trims s r) (c : Char) : eat? c r = eat? c s := by
  simp only [eat?, h.skipBlanks_eq]

theorem ne_dot_of_isNamePart {c : Char} (h : isNamePart c = true) : c ≠ '.' := by
  rintro rfl
  exact absurd h (by decide)

theorem nameTail_cons {c : Char} (hdot : c ≠ '.') (s : List Char) :
    nameTail (c :: s) =
      if isNamePart c then (nameTail s).map fun (cs, r) => (c :: cs, r) else .ok ([], c :: s) :=
  nameTail.eq_3 c s (fun _ _ h _ => hdot h) (fun h _ => hdot h)

/-- A name stops before anything that may follow it. -/
theorem nameTail_follows {rest : List Char} (h : Follows afterName rest) :
    nameTail rest = .ok ([], rest) := by
  cases rest with
  | nil => rfl
  | cons c r =>
    have hstop : isNamePart c = false ∧ c ≠ '.' := by
      by_cases hblank : isBlank c = true
      · refine ⟨isNamePart_of_isBlank hblank, ?_⟩
        rintro rfl
        exact absurd hblank (by decide)
      · have hmem := h c r (skipBlanks_cons (by simpa using hblank) r)
        exact stops_of_mem_afterName hmem
    rw [nameTail_cons hstop.2, hstop.1]
    rfl

theorem nameTail_parts {s : List Char} (parts : ∀ d ∈ s, isNamePart d = true) (u : List Char) :
    nameTail (s ++ u) = (nameTail u).map fun (cs, r) => (s ++ cs, r) := by
  induction s with
  | nil =>
    rw [List.nil_append]
    cases nameTail u <;> rfl
  | cons d s ih =>
    have hd : isNamePart d = true := parts d (by simp)
    rw [List.cons_append, nameTail_cons (ne_dot_of_isNamePart hd), if_pos hd,
      ih fun e he => parts e (by simp [he])]
    cases nameTail u <;> rfl

theorem IsDotted.nameTail_eq {c : Char} {s rest : List Char} (h : IsDotted (c :: s))
    (hrest : Follows afterName rest) : nameTail (s ++ rest) = .ok (s, rest) := by
  generalize hn : c :: s = n at h
  induction h generalizing c s with
  | name start parts =>
    obtain ⟨rfl, rfl⟩ := List.cons.inj hn
    rw [nameTail_parts parts, nameTail_follows hrest]
    simp [Except.map]
  | @dot d t r start parts hr ih =>
    obtain ⟨rfl, rfl⟩ := List.cons.inj hn
    obtain ⟨e, u, rfl, he⟩ := hr.exists_cons
    rw [List.append_assoc, nameTail_parts parts]
    simp only [List.cons_append, nameTail, he, if_true, ih rfl]
    rfl

theorem IsLiteralBody.literalTail_eq {s t : List Char} (h : IsLiteralBody s t)
    (rest : List Char) : literalTail (s ++ '"' :: rest) = .ok (t, rest) := by
  induction h with
  | nil => rfl
  | @plain c s t quote backslash _ ih =>
    rw [List.cons_append, literalTail.eq_4 c _ (fun h => quote h) (fun _ _ h _ => backslash h)
      (fun h _ => backslash h), ih]
    rfl
  | @escaped c s t _ ih =>
    simp only [List.cons_append, literalTail, ih]
    rfl

theorem nullMarks_skipBlanks (s : List Char) : nullMarks s = nullMarks (skipBlanks s) := by
  induction s with
  | nil => rfl
  | cons c s ih =>
    by_cases hblank : isBlank c = true
    · have hc : c ≠ '?' := by
        rintro rfl
        exact absurd hblank (by decide)
      rw [nullMarks.eq_2 c s (fun h => hc h), if_pos hblank, ih]
      simp [skipBlanks, hblank]
    · rw [skipBlanks_cons (by simpa using hblank)]

theorem AreMarks.nullMarks_eq {n : Nat} {q rest : List Char} (h : AreMarks n q)
    (hrest : Follows afterPostfixed rest) : nullMarks (q ++ rest) = (n, skipBlanks rest) := by
  induction h with
  | none =>
    rw [List.nil_append, nullMarks_skipBlanks]
    cases hskip : skipBlanks rest with
    | nil => rfl
    | cons c r =>
      have hc : c ≠ '?' := by
        rintro rfl
        exact absurd (hrest _ r hskip) (by decide)
      rw [nullMarks.eq_2 c r (fun h => hc h), isBlank_of_skipBlanks hskip]
      rfl
  | more mark _ ih =>
    rw [List.append_assoc, nullMarks_skipBlanks, mark.skipBlanks_eq (by decide)]
    simp only [List.singleton_append, nullMarks, ih]

/-! ## How a type starts -/

/-- After blanks, a text starts with a parenthesis, a quote or a name. -/
def Starts (s : List Char) : Prop :=
  ∃ c w, IsToken (c :: w) s ∧ (c = '(' ∨ c = '"' ∨ isNameStart c = true)

theorem IsToken.append {w s : List Char} (h : IsToken w s) (u : List Char) :
    IsToken (w ++ u) (s ++ u) := by
  obtain ⟨b, hb, rfl⟩ := h
  exact ⟨b, hb, by simp⟩

theorem Starts.append {s : List Char} (h : Starts s) (u : List Char) : Starts (s ++ u) := by
  obtain ⟨c, w, hw, hc⟩ := h
  exact ⟨c, w ++ u, hw.append u, hc⟩

theorem IsAtom.starts {s : List Char} {a : TypeExpr} (h : IsAtom s a) : Starts s := by
  cases h with
  | group opening _ _ => exact Starts.append ⟨_, _, opening, .inl rfl⟩ _
  | literal opening _ => exact Starts.append ⟨_, _, opening, .inr (.inl rfl)⟩ _
  | name dotted h =>
    obtain ⟨c, w, rfl, hc⟩ := dotted.exists_cons
    exact ⟨c, w, h, .inr (.inr hc)⟩
  | applied dotted h _ _ =>
    obtain ⟨c, w, rfl, hc⟩ := dotted.exists_cons
    exact Starts.append ⟨c, w, h, .inr (.inr hc)⟩ _

theorem IsPostfixed.starts {s : List Char} {a : TypeExpr} (h : IsPostfixed s a) : Starts s := by
  cases h with
  | marks h _ => exact h.starts.append _

theorem IsType.starts {s : List Char} {a : TypeExpr} (h : IsType s a) : Starts s := by
  cases h with
  | function h =>
    cases h with
    | arrow opening _ _ _ => exact Starts.append ⟨_, _, opening, .inl rfl⟩ _
  | alternatives h =>
    cases h with
    | one h => exact h.starts
    | function h _ _ => exact h.starts.append _
    | more h _ _ => exact h.starts.append _

theorem Starts.ne_nil {s : List Char} (h : Starts s) : s ≠ [] := by
  obtain ⟨c, w, hw, -⟩ := h
  exact hw.ne_nil (by simp)

theorem Starts.eat?_eq_none {s : List Char} (h : Starts s) {c : Char}
    (hc : c ∈ afterType) (u : List Char) : eat? c (s ++ u) = none := by
  obtain ⟨d, w, hw, hd⟩ := h
  have hfacts := not_start_of_mem_afterType hc
  have hblank : isBlank d = false := by
    rcases hd with rfl | rfl | hd
    · decide
    · decide
    · exact isBlank_of_isNameStart hd
  refine (hw.follows hblank (List.mem_singleton_self d) u).eat?_eq_none ?_
  rintro hmem
  obtain rfl := List.mem_singleton.mp hmem
  rcases hd with rfl | rfl | hd
  · exact hfacts.1 rfl
  · exact hfacts.2.1 rfl
  · exact Bool.false_ne_true (hfacts.2.2.symm.trans hd)

/-! ## Rules -/

section

variable {nested : List Char → Except Failure (TypeExpr × List Char)}

theorem atom_name {s u cs r : List Char} {c : Char} (hs : skipBlanks s = c :: u)
    (hc : isNameStart c = true) (htail : nameTail u = .ok (cs, r)) (hnone : eat? '<' r = none) :
    atom nested s = .ok (ofName (String.ofList (c :: cs)) [], r) := by
  rw [atom, hs]
  split
  next h =>
    obtain ⟨rfl, -⟩ := List.cons.inj h
    exact absurd hc (by decide)
  next h =>
    obtain ⟨rfl, -⟩ := List.cons.inj h
    exact absurd hc (by decide)
  next h =>
    obtain ⟨rfl, rfl⟩ := List.cons.inj h
    simp only [hc, if_true, htail, bind, Except.bind, hnone]
    rfl
  next h => cases h

theorem atom_applied {s u cs r r' r'' : List Char} {c : Char} {args : List TypeExpr}
    (hs : skipBlanks s = c :: u) (hc : isNameStart c = true) (htail : nameTail u = .ok (cs, r))
    (hsome : eat? '<' r = some r') (hargs : listTail nested '>' r' = .ok (args, r'')) :
    atom nested s = .ok (ofName (String.ofList (c :: cs)) args, r'') := by
  rw [atom, hs]
  split
  next h =>
    obtain ⟨rfl, -⟩ := List.cons.inj h
    exact absurd hc (by decide)
  next h =>
    obtain ⟨rfl, -⟩ := List.cons.inj h
    exact absurd hc (by decide)
  next h =>
    obtain ⟨rfl, rfl⟩ := List.cons.inj h
    simp only [hc, if_true, htail, bind, Except.bind, hsome, hargs]
    rfl
  next h => cases h

theorem postfixed_of_atom {s q rest r : List Char} {a : TypeExpr} {m : Nat}
    (hatom : atom nested s = .ok (a, r)) (htrim : Trims (q ++ rest) r)
    (hmarks : AreMarks m q) (hrest : Follows afterPostfixed rest) :
    postfixed nested s = .ok (marked a m, skipBlanks rest) := by
  rw [postfixed, hatom]
  have hnull : nullMarks r = (m, skipBlanks rest) := by
    rw [nullMarks_skipBlanks, ← htrim.skipBlanks_eq, ← nullMarks_skipBlanks,
      hmarks.nullMarks_eq hrest]
  simp only [bind, Except.bind, hnull]
  rfl

theorem moreAlternatives_follows {rest : List Char} (hrest : Follows afterType rest) (k : Nat) :
    moreAlternatives nested k rest = .ok ([], rest) := by
  cases k with
  | zero => rfl
  | succ k => rw [moreAlternatives, hrest.eat?_eq_none (by decide)]

/-- The first alternative is read on its own, and the others from where it ends. -/
def ReadsAlternatives (nested : List Char → Except Failure (TypeExpr × List Char))
    (s : List Char) (as : List TypeExpr) (rest : List Char) : Prop :=
  ∃ a bs r, as = a :: bs ∧ postfixed nested s = .ok (a, r) ∧ r.length ≤ s.length ∧
    ∀ k, r.length ≤ k → moreAlternatives nested k r = .ok (bs, rest)

theorem ReadsAlternatives.one {s rest : List Char} {a : TypeExpr}
    (hfirst : postfixed nested s = .ok (a, skipBlanks rest)) (hrest : Follows afterType rest)
    (hlen : rest.length ≤ s.length) : ReadsAlternatives nested s [a] (skipBlanks rest) := by
  have hfollows : Follows afterType (skipBlanks rest) := hrest.of_trims (trims_skipBlanks rest)
  exact ⟨a, [], skipBlanks rest, rfl, hfirst,
    Nat.le_trans (trims_skipBlanks rest).length_le hlen,
    fun k _ => moreAlternatives_follows hfollows k⟩

theorem ReadsAlternatives.cons {s bar t rest : List Char} {a : TypeExpr} {as : List TypeExpr}
    (h : ReadsAlternatives nested t as rest)
    (hfirst : postfixed nested s = .ok (a, skipBlanks (bar ++ t))) (sep : IsToken ['|'] bar)
    (hlen : (bar ++ t).length ≤ s.length) : ReadsAlternatives nested s (a :: as) rest := by
  obtain ⟨b, bs, r, rfl, hsecond, hr, hmore⟩ := h
  refine ⟨a, b :: bs, skipBlanks (bar ++ t), rfl, hfirst,
    Nat.le_trans (trims_skipBlanks _).length_le hlen, fun k hk => ?_⟩
  have hbar : eat? '|' (skipBlanks (bar ++ t)) = some t := by
    rw [(trims_skipBlanks (bar ++ t)).eat?_eq, eat?_token sep (by decide)]
  have ht := length_lt_of_eat? hbar
  cases k with
  | zero => omega
  | succ k =>
    rw [moreAlternatives, hbar]
    simp only [bind, Except.bind, hsecond, hmore k (by omega)]
    rfl

end

/-- A reader reads every type in a text shorter than a bound, up to what may follow it. -/
def Complete (n : Nat) (read : List Char → Except Failure (TypeExpr × List Char)) : Prop :=
  ∀ s a rest, IsType s a → Follows afterType rest → (s ++ rest).length < n →
    ∃ r, read (s ++ rest) = .ok (a, r) ∧ Trims rest r

section

variable {n : Nat} {nested : List Char → Except Failure (TypeExpr × List Char)}
  (complete : Complete n nested)

include complete

theorem Complete.itemsUpTo {close : Char} (hclose : close ∈ afterType) (hcomma : close ≠ ',')
    {right : List Char} (hright : IsToken [close] right) (rest : List Char) {k : Nat}
    {s : List Char} {as : List TypeExpr} (h : AreTypes s as)
    (hn : (s ++ (right ++ rest)).length < n) (hk : (s ++ (right ++ rest)).length ≤ k) :
    itemsUpTo nested close k (s ++ (right ++ rest)) = .ok (as, rest) := by
  have hblank := isBlank_of_mem_afterType hclose
  induction k generalizing s as with
  | zero =>
    have hnil : right = [] := by simp at hk; exact hk.2.1
    exact absurd hnil (hright.ne_nil (by simp))
  | succ k ih =>
    rw [TypeExpr.itemsUpTo]
    cases h with
    | @one s a h =>
      obtain ⟨r, hread, htrim⟩ := complete s a (right ++ rest) h
        (hright.follows hblank hclose rest) hn
      have hnone : eat? ',' (right ++ rest) = none :=
        (hright.follows hblank (List.mem_singleton_self close) rest).eat?_eq_none
          (by simpa using Ne.symm hcomma)
      simp only [hread, bind, Except.bind, htrim.eat?_eq, hnone, eat?_token hright hblank]
      rfl
    | @more s comma u a as h sep rest' =>
      have hlen : (s ++ (comma ++ u)).length = s.length + (comma.length + u.length) := by simp
      have hpos : comma.length ≠ 0 := by
        simpa using sep.ne_nil (by simp)
      simp only [List.append_assoc] at hn hk ⊢
      obtain ⟨r, hread, htrim⟩ := complete s a (comma ++ (u ++ (right ++ rest))) h
        (sep.follows (by decide) (by decide) _) hn
      simp only [List.length_append] at hn hk
      have hitems := ih rest' (by simp only [List.length_append]; omega)
        (by simp only [List.length_append]; omega)
      simp only [hread, bind, Except.bind, htrim.eat?_eq, eat?_token sep (by decide), hitems]
      rfl

theorem Complete.listTail {close : Char} (hclose : close ∈ afterType) (hcomma : close ≠ ',')
    {s : List Char} {as : List TypeExpr} (h : IsListUpTo close s as) (rest : List Char)
    (hn : (s ++ rest).length < n) : listTail nested close (s ++ rest) = .ok (as, rest) := by
  have hblank := isBlank_of_mem_afterType hclose
  rw [TypeExpr.listTail]
  cases h with
  | empty closing => rw [eat?_token closing hblank]
  | @types _ s right as items closing =>
    have hstarts : Starts s := by
      cases items with
      | one h => exact h.starts
      | more h _ _ => exact h.starts.append _
    rw [List.append_assoc] at hn ⊢
    rw [hstarts.eat?_eq_none hclose]
    exact complete.itemsUpTo hclose hcomma closing rest items hn (Nat.le_refl _)

theorem Complete.atom {s rest : List Char} {a : TypeExpr} (h : IsAtom s a)
    (hrest : Follows afterAtom rest) (hn : (s ++ rest).length ≤ n) :
    ∃ r, atom nested (s ++ rest) = .ok (a, r) ∧ Trims rest r := by
  refine ⟨rest, ?_, Trims.refl rest⟩
  cases h with
  | @group left s right a opening h closing =>
    have hitems : IsListUpTo ')' (s ++ right) [a] := .types (.one h) closing
    have hlist := complete.listTail (by decide) (by decide) hitems rest (by
      have hpos : left.length ≠ 0 := by simpa using opening.ne_nil (by simp)
      simp only [List.length_append] at hn ⊢
      omega)
    have harrow : eatArrow? rest = none := hrest.eatArrow?_eq_none (by decide)
    simp only [TypeExpr.atom, List.append_assoc, opening.skipBlanks_eq (by decide),
      List.singleton_append, parenTail]
    rw [← List.append_assoc, hlist]
    simp only [bind, Except.bind, harrow]
    rfl
  | literal opening body =>
    simp only [TypeExpr.atom, List.append_assoc, opening.skipBlanks_eq (by decide),
      List.singleton_append, body.literalTail_eq rest]
    rfl
  | name dotted h =>
    obtain ⟨c, w, rfl, hc⟩ := dotted.exists_cons
    have hskip := h.skipBlanks_eq (isBlank_of_isNameStart hc) rest
    have htail := dotted.nameTail_eq (hrest.mono afterAtom_subset)
    exact atom_name hskip hc htail (hrest.eat?_eq_none (by decide))
  | @applied s _ left u args dotted h opening items =>
    obtain ⟨c, w, rfl, hc⟩ := dotted.exists_cons
    have hskip := h.skipBlanks_eq (isBlank_of_isNameStart hc) (left ++ (u ++ rest))
    have htail : nameTail (w ++ (left ++ (u ++ rest))) = .ok (w, left ++ (u ++ rest)) :=
      dotted.nameTail_eq (opening.follows (by decide) (by decide) _)
    have hargs := complete.listTail (by decide) (by decide) items rest (by
      have hpos : s.length ≠ 0 := by simpa using h.ne_nil (by simp)
      simp only [List.length_append] at hn ⊢
      omega)
    rw [List.append_assoc, List.append_assoc]
    exact atom_applied hskip hc htail (eat?_token opening (by decide) _) hargs

theorem Complete.function {s rest : List Char} {a : TypeExpr} (h : IsFunction s a)
    (hrest : Follows afterType rest) (hn : (s ++ rest).length ≤ n) :
    ∃ r, TypeExpr.atom nested (s ++ rest) = .ok (a, r) ∧ Trims rest r := by
  cases h with
  | @arrow left s arrow u params result opening items sep h =>
    have hpos : left.length ≠ 0 := by simpa using opening.ne_nil (by simp)
    simp only [List.append_assoc, List.length_append] at hn ⊢
    have hparams := complete.listTail (by decide) (by decide) items (arrow ++ (u ++ rest))
      (by simp only [List.length_append]; omega)
    obtain ⟨r, hresult, htrim⟩ := complete u result rest h hrest
      (by simp only [List.length_append]; omega)
    refine ⟨r, ?_, htrim⟩
    simp only [TypeExpr.atom, opening.skipBlanks_eq (by decide), List.singleton_append, parenTail,
      hparams, bind, Except.bind, eatArrow?_token sep, hresult]
    rfl

theorem Complete.postfixed {s rest : List Char} {a : TypeExpr} (h : IsPostfixed s a)
    (hrest : Follows afterPostfixed rest) (hn : (s ++ rest).length ≤ n) :
    TypeExpr.postfixed nested (s ++ rest) = .ok (a, skipBlanks rest) := by
  cases h with
  | @marks s q a m h hmarks =>
    rw [List.append_assoc] at hn ⊢
    have hafter : Follows afterAtom (q ++ rest) := by
      cases hmarks with
      | none => exact hrest.mono afterPostfixed_subset
      | more mark _ =>
        rw [List.append_assoc]
        exact mark.follows (by decide) (by decide) _
    obtain ⟨r, hatom, htrim⟩ := complete.atom h hafter hn
    exact postfixed_of_atom hatom htrim hmarks hrest

theorem Complete.postfixed_function {s rest : List Char} {a : TypeExpr} (h : IsFunction s a)
    (hrest : Follows afterType rest) (hn : (s ++ rest).length ≤ n) :
    TypeExpr.postfixed nested (s ++ rest) = .ok (a, skipBlanks rest) := by
  obtain ⟨r, hatom, htrim⟩ := complete.function h hrest hn
  exact postfixed_of_atom (q := []) hatom htrim .none (hrest.mono afterType_subset)

theorem Complete.alternatives {s rest : List Char} {as : List TypeExpr}
    (h : AreAlternatives s as) (hrest : Follows afterType rest) (hn : (s ++ rest).length ≤ n) :
    ReadsAlternatives nested (s ++ rest) as (skipBlanks rest) := by
  induction as generalizing s with
  | nil => cases h
  | cons a as ih =>
    cases h with
    | one h =>
      exact ReadsAlternatives.one (complete.postfixed h (hrest.mono afterType_subset) hn) hrest
        (by simp)
    | @function s bar u _ f h sep last =>
      simp only [List.append_assoc] at hn ⊢
      have hlast := complete.postfixed_function last hrest (by simp at hn ⊢; omega)
      exact (ReadsAlternatives.one hlast hrest (by simp)).cons
        (complete.postfixed h (sep.follows (by decide) (by decide) _) hn) sep (by simp)
    | @more s bar u _ _ h sep others =>
      simp only [List.append_assoc] at hn ⊢
      exact (ih others (by simp at hn ⊢; omega)).cons
        (complete.postfixed h (sep.follows (by decide) (by decide) _) hn) sep (by simp)

theorem Complete.type : Complete (n + 1) (type nested) := by
  intro s a rest h hrest hn
  refine ⟨skipBlanks rest, ?_, trims_skipBlanks rest⟩
  have hn : (s ++ rest).length ≤ n := Nat.le_of_lt_succ hn
  rw [TypeExpr.type]
  cases h with
  | function h =>
    have hfollows : Follows afterType (skipBlanks rest) := hrest.of_trims (trims_skipBlanks rest)
    simp only [bind, Except.bind, complete.postfixed_function h hrest hn,
      moreAlternatives_follows hfollows]
    rfl
  | alternatives h =>
    obtain ⟨b, bs, r, heq, hfirst, -, hmore⟩ := complete.alternatives h hrest hn
    obtain ⟨rfl, rfl⟩ := List.cons.inj heq
    simp only [bind, Except.bind, hfirst, hmore _ (Nat.le_refl _)]
    rfl

end

theorem complete_typeWithin (n : Nat) : Complete n (typeWithin n) := by
  induction n with
  | zero => intro s a rest _ _ hn; exact absurd hn (Nat.not_lt_zero _)
  | succ n ih => exact ih.type

/-- A text of the grammar is read, and its tree is what `parse` returns. -/
theorem parse_of_derives {input : String} {a : TypeExpr} (h : Derives input.toList a) :
    parse input = .ok a := by
  obtain ⟨u, b, htype, hb, hinput⟩ := h
  have hskip : skipBlanks b = [] := by
    simpa [skipBlanks] using skipBlanks_append hb []
  have hend : Follows afterType b := by
    intro c r hc
    rw [hskip] at hc
    cases hc
  obtain ⟨r, hread, htrim⟩ :=
    complete_typeWithin (input.toList.length + 1) u a b htype hend (by rw [← hinput]; omega)
  simp only [parse, hinput] at hread ⊢
  rw [hread]
  simp only [← htrim.skipBlanks_eq, hskip]

end PklAnalysis.TypeExpr
