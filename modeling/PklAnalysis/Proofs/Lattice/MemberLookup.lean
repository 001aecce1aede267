import Mathlib.Data.List.Nodup
import PklAnalysis.Lattice.Members
import PklAnalysis.Proofs.Lattice.NormalTypes

/-!
# What a member cache finds

What is found under a name depends only on the visible declarations of the name and kind, in their
order.  The first of them is the member.  If it is not abstract, it implements the first abstract
one among the others.  A cache is therefore followed name by name: an entry is made by the first
declaration of its name and amended by the others (`MemberCache.meet`), and what a whole run of
them leaves is read off the list (`MemberCache.foldl_meet`).
-/

namespace PklAnalysis.MemberCache

/-- Whether a member has a name and a kind. -/
def declares (name : String) (kind : MemberKind) (m : MemberDef) : Bool :=
  m.kind = kind && m.name = name

theorem declares_iff {name : String} {kind : MemberKind} {m : MemberDef} :
    declares name kind m = true ↔ m.kind = kind ∧ m.name = name := by
  rw [declares, Bool.and_eq_true, decide_eq_true_eq, decide_eq_true_eq]

/-- The first declaration of a name and a kind. -/
def first? (name : String) (kind : MemberKind) (ms : List MemberDef) : Option MemberDef :=
  ms.find? fun m => m.kind = kind && m.name = name

theorem first?_append (name : String) (kind : MemberKind) (ms ms' : List MemberDef) :
    first? name kind (ms ++ ms') = (first? name kind ms).or (first? name kind ms') :=
  List.find?_append

theorem name_of_first? {name : String} {kind : MemberKind} {ms : List MemberDef} {m : MemberDef}
    (h : first? name kind ms = some m) : m.name = name := by
  have hfound := List.find?_some h
  rw [Bool.and_eq_true, decide_eq_true_eq, decide_eq_true_eq] at hfound
  exact hfound.2

theorem kind_of_first? {name : String} {kind : MemberKind} {ms : List MemberDef} {m : MemberDef}
    (h : first? name kind ms = some m) : m.kind = kind := by
  have hfound := List.find?_some h
  rw [Bool.and_eq_true, decide_eq_true_eq, decide_eq_true_eq] at hfound
  exact hfound.1

theorem first?_eq_none {name : String} {ms : List MemberDef} (h : ∀ m ∈ ms, m.name ≠ name)
    (kind : MemberKind) : first? name kind ms = none := by
  rw [Option.eq_none_iff_forall_not_mem]
  exact fun m hm => h m (List.mem_of_find?_eq_some hm) (name_of_first? hm)

/-! ## One name -/

/-- The entry of a name once one more declaration of the name is met. -/
def meet (e : Option CachedMember) (d : MemberDef) : Option CachedMember :=
  match e with
  | none => some ⟨d, none⟩
  | some e =>
    if !e.member.isAbstract && d.isAbstract && e.implements.isNone then
      some { e with implements := some d }
    else some e

/-- The abstract declaration that a member implements among those after it. -/
def implemented? (m : MemberDef) (after : List MemberDef) : Option MemberDef :=
  if m.isAbstract then none else after.find? (·.isAbstract)

/-- The declarations that follow leave the member of an entry as it is, and what it implements
once it implements something. -/
theorem foldl_meet_some (e : CachedMember) (ds : List MemberDef) :
    ds.foldl meet (some e) =
      some ⟨e.member, e.implements.or (implemented? e.member ds)⟩ := by
  induction ds generalizing e with
  | nil => simp [implemented?]
  | cons d ds ih =>
    obtain ⟨m, i⟩ := e
    rw [List.foldl_cons, meet]
    cases hm : m.isAbstract with
    | true => simp [ih, implemented?, hm]
    | false =>
      cases i with
      | some a => simp [ih]
      | none => cases hd : d.isAbstract <;> simp [ih, implemented?, hm, hd]

theorem foldl_meet (ds : List MemberDef) :
    ds.foldl meet none = match ds with
      | [] => none
      | m :: after => some ⟨m, implemented? m after⟩ := by
  cases ds with
  | nil => rfl
  | cons m after => rw [List.foldl_cons, meet, foldl_meet_some, Option.none_or]

/-! ## One table -/

/-- An entry under a name as `note` leaves it. -/
theorem find?_note (table : List CachedMember) (d : MemberDef) (name : String) :
    (note table d).find? (·.member.name = name) =
      if d.name = name then meet (table.find? (·.member.name = name)) d
      else table.find? (·.member.name = name) := by
  rw [note]
  cases hany : table.any (·.member.name = d.name) with
  | true =>
    rw [if_pos rfl, List.find?_map]
    -- what a member implements does not change its name
    have hname : ((fun e : CachedMember => decide (e.member.name = name)) ∘ fun e =>
        if e.member.name = d.name && !e.member.isAbstract && d.isAbstract && e.implements.isNone
        then { e with implements := some d } else e) = fun e => decide (e.member.name = name) := by
      funext e
      rw [Function.comp_apply]
      split <;> rfl
    rw [hname]
    cases hfind : table.find? (·.member.name = name) with
    | none =>
      have hne : d.name ≠ name := by
        rintro rfl
        obtain ⟨e, he, hd⟩ := List.any_eq_true.mp hany
        exact List.find?_eq_none.mp hfind e he hd
      rw [if_neg hne, Option.map_none]
    | some e =>
      have he : e.member.name = name := by simpa using List.find?_some hfind
      rw [Option.map_some, he]
      by_cases hd : d.name = name
      · simp only [hd, decide_true, Bool.true_and, if_true, meet, apply_ite some]
      · simp [hd, Ne.symm hd]
  | false =>
    rw [if_neg Bool.false_ne_true, List.find?_append, List.find?_singleton]
    by_cases hd : d.name = name
    · have hnone : table.find? (·.member.name = name) = none := by
        rw [List.find?_eq_none]
        exact fun e he h => List.any_eq_false.mp hany e he (hd ▸ h)
      simp [hnone, hd, meet]
    · simp [hd]

/-- The names of a table, in the order in which they are first met. -/
theorem map_name_note (table : List CachedMember) (ms : List MemberDef) (d : MemberDef)
    (h : table.map (·.member.name) = (ms.map (·.name)).eraseDups) :
    (note table d).map (·.member.name) = ((ms ++ [d]).map (·.name)).eraseDups := by
  have hany : table.any (·.member.name = d.name) = true ↔ d.name ∈ ms.map (·.name) := by
    rw [← List.mem_eraseDups, ← h, List.any_eq_true, List.mem_map]
    exact exists_congr fun e => and_congr_right fun _ => decide_eq_true_iff
  rw [note, List.map_append, List.map_singleton, eraseDups_append_singleton, ← h]
  by_cases hd : d.name ∈ ms.map (·.name)
  · rw [if_pos (hany.mpr hd), if_pos hd, List.map_map]
    refine List.map_congr_left fun e _ => ?_
    rw [Function.comp_apply]
    split <;> rfl
  · rw [if_neg (mt hany.mp hd), if_neg hd, List.map_append, List.map_singleton]

/-! ## The whole cache -/

theorem lookup_add (cache : MemberCache) (d : MemberDef) (name : String) (kind : MemberKind) :
    (cache.add d).lookup name kind =
      if declares name kind d then meet (cache.lookup name kind) d
      else cache.lookup name kind := by
  rw [lookup, lookup, add, declares]
  cases d.kind <;> cases kind <;>
    simp only [table, decide_true, Bool.true_and, decide_eq_true_eq, find?_note, reduceCtorEq,
      decide_false, Bool.false_and, Bool.false_eq_true, if_false]

/-- What is found under a name is decided by the visible declarations of the name and kind. -/
theorem lookup_build_eq (cs : List ClassDef) (name : String) (kind : MemberKind) :
    (build cs).lookup name kind = ((visible cs).filter (declares name kind)).foldl meet none := by
  have hrun : ∀ (ms : List MemberDef) (cache : MemberCache), (ms.foldl add cache).lookup name kind =
      (ms.filter (declares name kind)).foldl meet (cache.lookup name kind) := by
    intro ms
    induction ms with
    | nil => exact fun _ => rfl
    | cons m ms ih =>
      intro cache
      rw [List.foldl_cons, ih, lookup_add, List.filter_cons]
      split <;> rfl
  rw [build, hrun]
  cases kind <;> rfl

/-- The member that a class shows under a name is the first visible one. -/
theorem lookup_build (cs : List ClassDef) (name : String) (kind : MemberKind) :
    ((build cs).lookup name kind).map (·.member) = first? name kind (visible cs) := by
  rw [lookup_build_eq, foldl_meet, first?, ← List.head?_filter]
  change _ = ((visible cs).filter (declares name kind)).head?
  cases (visible cs).filter (declares name kind) <;> rfl

/-- The table of a kind lists the names of the visible declarations of the kind. -/
theorem map_name_table_build (cs : List ClassDef) (kind : MemberKind) :
    ((build cs).table kind).map (·.member.name) =
      (((visible cs).filter (·.kind = kind)).map (·.name)).eraseDups := by
  have hrun : ∀ ms : List MemberDef, ((ms.foldl add ⟨[], []⟩).table kind).map (·.member.name) =
      ((ms.filter (·.kind = kind)).map (·.name)).eraseDups := by
    intro ms
    induction ms using List.reverseRecOn with
    | nil => cases kind <;> rfl
    | append_singleton ms d ih =>
      rw [List.foldl_append, List.foldl_cons, List.foldl_nil, List.filter_append, List.filter_cons,
        List.filter_nil]
      by_cases hkind : d.kind = kind
      · subst hkind
        rw [if_pos (decide_eq_true rfl), ← map_name_note _ _ d ih, add]
        cases d.kind <;> rfl
      · rw [if_neg (by simpa using hkind), List.append_nil, ← ih, add]
        cases hd : d.kind <;> cases kind <;> first | rfl | exact absurd hd hkind
  exact hrun _

/-! ## What a cache says -/

/-- The members of a chain of classes, class by class, without the local ones of every class but
the first. -/
def shown (cs : List ClassDef) : List MemberDef :=
  cs.zipIdx.flatMap fun (c, depth) => c.members.filter fun m => depth = 0 || !m.isLocal

theorem visible_eq_shown (cs : List ClassDef) : visible cs = shown cs := by
  cases cs with
  | nil => rfl
  | cons c rest =>
    rw [shown, List.zipIdx_cons, List.flatMap_cons, visible]
    refine congrArg₂ _ (List.filter_eq_self.mpr fun _ _ => rfl).symm ?_
    conv_lhs => rw [← List.zipIdx_map_fst 1 rest, List.flatMap_map]
    refine List.flatMap_congr fun (a, depth) h => List.filter_congr fun m _ => ?_
    have hdepth := List.mem_zipIdx h
    simp only [show depth ≠ 0 by omega, decide_false, Bool.false_or]

/-- What a cache says if it is right about the members of a list. -/
structure Describes (ms : List MemberDef) (cache : MemberCache) : Prop where
  isSome_lookup : ∀ name kind, (cache.lookup name kind).isSome ↔
    ∃ m ∈ ms, m.name = name ∧ m.kind = kind
  /-- The member of an entry is the first of its name and kind.  It implements the first abstract
  one of the name and kind after it, and nothing if it is abstract itself. -/
  splits : ∀ name kind e, cache.lookup name kind = some e →
    ∃ before after, ms = before ++ e.member :: after ∧
      (e.member.name = name ∧ e.member.kind = kind) ∧
      (∀ m ∈ before, ¬(m.name = name ∧ m.kind = kind)) ∧
      e.implements =
        if e.member.isAbstract then none
        else after.find? fun m => m.name = name ∧ m.kind = kind ∧ m.isAbstract
  names_eq : cache.names =
    (((ms.filter (·.kind = .property)).map (·.name)).eraseDups.map fun name => (name, .property)) ++
      ((ms.filter (·.kind = .method)).map (·.name)).eraseDups.map fun name => (name, .method)
  nodup_names : cache.names.Nodup
  size_eq : cache.size = cache.names.length

theorem names_build (cs : List ClassDef) : (build cs).names =
    ((((visible cs).filter (·.kind = .property)).map (·.name)).eraseDups.map
      fun name => (name, .property)) ++
    (((visible cs).filter (·.kind = .method)).map (·.name)).eraseDups.map
      fun name => (name, .method) := by
  rw [← map_name_table_build, ← map_name_table_build, List.map_map, List.map_map]
  rfl

theorem nodup_names_build (cs : List ClassDef) : (build cs).names.Nodup := by
  rw [names_build, List.nodup_append]
  refine ⟨(nodup_eraseDups _).map fun _ _ h => congrArg Prod.fst h,
    (nodup_eraseDups _).map fun _ _ h => congrArg Prod.fst h, fun p hp q hq hpq => ?_⟩
  obtain ⟨x, -, rfl⟩ := List.mem_map.mp hp
  obtain ⟨y, -, rfl⟩ := List.mem_map.mp hq
  exact MemberKind.noConfusion (congrArg Prod.snd hpq)

/-- The cache of a chain of classes is right about the members that the chain shows. -/
theorem describes_build (cs : List ClassDef) : Describes (shown cs) (build cs) := by
  rw [← visible_eq_shown]
  refine ⟨fun name kind => ?_, fun name kind e he => ?_, names_build cs, nodup_names_build cs, ?_⟩
  · rw [← Option.isSome_map, lookup_build, first?, List.find?_isSome]
    simp only [Bool.and_eq_true, decide_eq_true_eq, and_comm]
  · rw [lookup_build_eq, foldl_meet] at he
    split at he
    · cases he
    · next m later hfilter =>
      obtain rfl := Option.some.inj he
      obtain ⟨before, after, hsplit, hbefore, hm, hafter⟩ := List.filter_eq_cons_iff.mp hfilter
      refine ⟨before, after, hsplit, (declares_iff.mp hm).symm, fun b hb h =>
        hbefore b hb (declares_iff.mpr h.symm), ?_⟩
      rw [implemented?, ← hafter, List.find?_filter]
      simp only [declares, Bool.decide_and, Bool.and_comm, Bool.and_left_comm,
        Bool.decide_eq_true]
  · rw [size, names, List.length_append, List.length_map, List.length_map]

end PklAnalysis.MemberCache
