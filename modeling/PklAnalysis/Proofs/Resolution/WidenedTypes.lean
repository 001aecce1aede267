import PklAnalysis.Proofs.Resolution.Widening
import PklAnalysis.Proofs.Text.Cuts

/-!
# Modules and annotations over a widened store

A widening holds modules of the same identities at the same places, so trees, the targets of
references and supermodules are found side by side in both stores.  An annotation has the same type
in a store and in a widening of it: neither type parameters nor classes and type aliases are among
the hidden members, and the names in the annotation lead to the same imports.
-/

namespace PklAnalysis.Widening

open Session

variable {W V : Store} {name : String} (w : Widening W V name)

/-! ## Trees -/

/-- The tree that is found for a module. -/
theorem answers_tree? (hW : W.IsPlain) (id : ModuleId) :
    Answers W (tree? id) (if id = BaseModule.id then some BaseModule.tree else W.tree? id) := by
  intro s hs
  obtain ⟨hanswer, hcurrent, -⟩ := hs.current.tree?_spec hW id
  exact ⟨hanswer, hcurrent, hs.leads.of_targets (.inl (targets_tree? id s))⟩

theorem parallel_tree? (id : ModuleId) : Parallel W V
    (fun o o' => w.Carried (Option.map w.tree) o o' ∧ ∀ t ∈ o, t.id = id)
    (tree? id) (tree? id) := by
  refine ⟨_, _, answers_tree? w.plain id, answers_tree? w.plain' id, ⟨fun t ht => ?_, ?_⟩,
    fun t ht => ?_⟩
  · split at ht
    · exact Option.some.inj ht ▸ .base
    · exact w.plain.grounded_of_mem (.inr (by rw [w.plain.keyed ht, ht]))
  · split
    · rw [Option.map_some, w.tree_base]
    · exact w.tree?_eq id
  · split at ht
    · next hid => exact Option.some.inj ht ▸ hid.symm
    · exact w.plain.keyed ht

/-! ## References to modules -/

theorem uriAt?_tree {t : Tree} (ht : t ∈ W.held) (n : Nat) :
    uriAt? (w.tree t) (w.index t n) = uriAt? t n := by
  rw [uriAt?, uriAt?, (w.embeds_tree ht).kind]

/-- A reference leads to the same module. -/
theorem find_eq (uri : String) (importer : ModuleId) :
    (V.find uri importer).toOption = (W.find uri importer).toOption.map w.tree := by
  have hmap := w.sameFrame.map_find w.plain w.plain' uri importer
  cases hfind : W.find uri importer with
  | error e =>
    rw [hfind] at hmap
    cases hfind' : V.find uri importer with
    | error e' => rfl
    | ok u => rw [hfind'] at hmap; cases hmap
  | ok t =>
    rw [hfind] at hmap
    obtain ⟨u, hfind', hid⟩ := exists_of_map_eq_ok hmap.symm
    have ht := w.plain.tree?_of_find hfind
    have hu := w.plain'.tree?_of_find hfind'
    rw [hid, w.tree?_eq, ht] at hu
    rw [hfind', ← Option.some.inj hu]
    rfl

theorem answers_resolveModule? (hW : W.IsPlain) {importer : Tree} (ht : Grounded W.held importer)
    {n : Nat} {uri : String} (huri : uriAt? importer n = some uri) :
    Answers W (resolveModule? importer uri) (if uri = BaseModule.uri then some BaseModule.tree
      else (W.find uri importer.id).toOption) := by
  have hanswers := Answers.of_steady hW (steady_resolveModule? ht huri)
  have hnew : (resolveModule? importer uri (new W)).1 =
      (resolveModule importer uri (new W)).1.toOption := rfl
  rw [hnew] at hanswers
  split
  · next hbase =>
    rw [resolveModule_apply, if_pos hbase] at hanswers
    exact hanswers
  · next hbase =>
    obtain ⟨s', hfinds, -⟩ := (IsCurrent.new hW).finds_new hW hbase rfl
    rw [hfinds] at hanswers
    exact hanswers

theorem parallel_resolveModule? {importer : Tree} (ht : Grounded W.held importer) {n : Nat}
    {uri : String} (huri : uriAt? importer n = some uri) :
    Parallel W V (w.Carried (Option.map w.tree)) (resolveModule? importer uri)
      (resolveModule? (w.tree importer) uri) := by
  have huri' : uriAt? (w.tree importer) (w.index importer n) = some uri :=
    (w.uriAt?_tree (Store.IsPlain.mem_held ht) n).trans huri
  refine ⟨_, _, answers_resolveModule? w.plain ht huri,
    answers_resolveModule? w.plain' (w.grounded_tree ht) huri', fun t ht' => ?_, ?_⟩
  · split at ht'
    · exact Option.some.inj ht' ▸ .base
    · cases hfind : W.find uri importer.id with
      | error e => rw [hfind] at ht'; cases ht'
      | ok u =>
        rw [hfind] at ht'
        obtain rfl := Option.some.inj ht'
        exact w.plain.grounded_of_mem (.inr (w.plain.tree?_of_find hfind))
  · split
    · rw [Option.map_some, w.tree_base]
    · rw [id_tree]
      exact w.find_eq uri importer.id

/-! ## Supermodules -/

theorem parallel_supermodule? {t : Tree} (ht : Grounded W.held t) :
    Parallel W V (w.Carried (Option.map w.tree)) (supermodule? t) (supermodule? (w.tree t)) := by
  rw [supermodule?, supermodule?, (w.embeds_tree (Store.IsPlain.mem_held ht)).clause?_eq]
  cases hclause : t.clause? with
  | none => exact .pure ⟨.none, rfl⟩
  | some c =>
    have ⟨n, hn⟩ : ∃ n, uriAt? t n = some c.2.2 := exists_uriAt?_clause hclause
    exact w.parallel_resolveModule? ht hn

theorem parallel_supermodulesFrom (n : Nat) (seen : List ModuleId) {next : Option Tree}
    (hnext : Grounded W.held next) :
    Parallel W V (w.Carried (List.map w.tree)) (supermodulesFrom n seen next)
      (supermodulesFrom n seen (next.map w.tree)) := by
  induction n generalizing seen next with
  | zero =>
    cases next with
    | none => exact .pure ⟨.nil, rfl⟩
    | some t =>
      rw [Option.map_some, supermodulesFrom, supermodulesFrom, id_tree]
      split
      · exact .pure ⟨.nil, rfl⟩
      · exact .pure ⟨.nil, rfl⟩
  | succ n ih =>
    cases next with
    | none => exact .pure ⟨.nil, rfl⟩
    | some t =>
      rw [Option.map_some, supermodulesFrom, supermodulesFrom, id_tree]
      split
      · exact .pure ⟨.nil, rfl⟩
      · refine (w.parallel_supermodule? hnext.of_some).bind ?_
        rintro parent _ ⟨hparent, rfl⟩
        refine (ih (t.id :: seen) hparent).bind ?_
        rintro rest _ ⟨hrest, rfl⟩
        exact .pure ⟨.cons hnext.of_some hrest, rfl⟩

/-- Supermodules are followed with as many steps as there are nodes; more steps do not matter. -/
theorem answers_supermodules (hW : W.IsPlain) {t : Tree} (ht : Grounded W.held t)
    {next : Option Tree} (hnext : Grounded W.held next) {n : Nat} (hn : W.sites.length < n)
    {ts : List Tree} (h : Answers W (supermodulesFrom n [t.id] next) ts) :
    Answers W (do supermodulesFrom ((← get).capacity + 1) [t.id] next : Query (List Tree)) ts := by
  refine h.congr fun s hs => ?_
  have hcapacity := hs.current.length_sites_le
  have hroot : ⟨t.id, Tree.root⟩ ∈ W.sites := Store.IsPlain.site_mem ht.moduleDecl
  exact supermodulesFrom_congr hW hs.current (List.nodup_singleton _)
    (List.forall_mem_singleton.mpr hroot) hnext (by rw [List.length_singleton]; omega)
    (by rw [List.length_singleton]; omega)

theorem parallel_supermodules {t : Tree} (ht : Grounded W.held t) :
    Parallel W V (w.Carried (List.map w.tree)) (supermodules t) (supermodules (w.tree t)) := by
  refine (w.parallel_supermodule? ht).bind ?_
  rintro next _ ⟨hnext, rfl⟩
  have hnext' : Grounded V.held (next.map w.tree) := by
    intro u hu
    obtain ⟨t', ht', rfl⟩ := Option.map_eq_some_iff.mp hu
    exact w.grounded_tree (hnext t' ht')
  -- both chains are followed with more steps than there are nodes in either store
  obtain ⟨ts, ts', hts, hts', hcarried⟩ :=
    w.parallel_supermodulesFrom (W.sites.length + V.sites.length + 1) [t.id] hnext
  refine ⟨ts, ts', answers_supermodules w.plain ht hnext (by omega) hts, ?_, hcarried⟩
  rw [← w.id_tree t] at hts'
  exact answers_supermodules w.plain' (w.grounded_tree ht) hnext' (by omega) hts'

/-! ## Names in a tree -/

section Trees

variable {t : Tree} (ht : t ∈ W.held)
include ht

theorem ownTypeParam?_tree (x : String) (n : Nat) :
    ownTypeParam? (w.tree t) x (w.index t n) = (ownTypeParam? t x n).map w.ty := by
  rw [ownTypeParam?, ownTypeParam?, (w.embeds_tree ht).kind]
  cases t.kind? n with
  | none => rfl
  | some kind =>
    simp only [Option.bind_eq_bind, Option.bind_some]
    cases (typeParamsOf kind).findIdx? (·.name = x) with
    | none => rfl
    | some i =>
      rw [Option.bind_some, Option.bind_some, ← w.site_siteOf]
      rfl

theorem typeParam?_tree (context : Nat) (x : String) :
    typeParam? (w.tree t) (w.index t context) x = (typeParam? t context x).map w.ty := by
  rw [typeParam?, typeParam?, (w.embeds_tree ht).ancestors_eq, ← List.map_cons, List.findSome?_map]
  generalize context :: t.ancestors context = scopes
  induction scopes with
  | nil => rfl
  | cons n scopes ih =>
    rw [List.findSome?_cons, List.findSome?_cons, Function.comp_apply, w.ownTypeParam?_tree ht]
    cases ownTypeParam? t x n with
    | none => exact ih
    | some type => rfl

omit ht in
theorem padded_map (args : List Ty) (arity : Nat) :
    padded (args.map w.ty) arity = (padded args arity).map w.ty := by
  rw [padded, padded, List.map_map]
  refine List.map_congr_left fun i _ => ?_
  exact (Relabelling.ty_argAt args i).symm

theorem typeIn?_tree (x : String) (args : List Ty) :
    typeIn? (w.tree t) x (args.map w.ty) = (typeIn? t x args).map w.ty := by
  rw [typeIn?, typeIn?, (w.embeds_tree ht).findType?_eq]
  cases t.findType? x with
  | none => rfl
  | some n =>
    simp only [Option.map_some, Option.bind_eq_bind, Option.bind_some, (w.embeds_tree ht).kind]
    cases t.kind? n with
    | none => rfl
    | some kind =>
      cases kind with
      | «class» h | typeAlias h =>
        simp only [Option.bind_some, Option.map_some, w.padded_map, Relabelling.ty,
          Relabelling.decl, w.site_siteOf, Relabelling.tys_eq_map]
      | _ => rfl

theorem isLocalNode_tree (n : Nat) : isLocalNode (w.tree t) (w.index t n) = isLocalNode t n := by
  rw [isLocalNode, isLocalNode, (w.embeds_tree ht).kind]

theorem exportedTypeIn?_tree (x : String) (args : List Ty) :
    exportedTypeIn? (w.tree t) x (args.map w.ty) = (exportedTypeIn? t x args).map w.ty := by
  rw [exportedTypeIn?, exportedTypeIn?, (w.embeds_tree ht).findType?_eq]
  cases t.findType? x with
  | none => rfl
  | some n =>
    simp only [Option.map_some, Option.bind_eq_bind, Option.bind_some, w.isLocalNode_tree ht,
      w.typeIn?_tree ht]
    split <;> rfl

end Trees

theorem firstExported?_tree {ts : List Tree} (hts : Grounded W.held ts) (x : String)
    (args : List Ty) :
    firstExported? (ts.map w.tree) x (args.map w.ty) = (firstExported? ts x args).map w.ty := by
  rw [firstExported?, firstExported?]
  induction ts with
  | nil => rfl
  | cons t ts ih =>
    have ⟨ht, hts⟩ := List.forall_mem_cons.mp hts
    rw [List.map_cons, List.findSome?_cons, List.findSome?_cons,
      w.exportedTypeIn?_tree (Store.IsPlain.mem_held ht)]
    cases exportedTypeIn? t x args with
    | none => exact ih hts
    | some type => rfl

/-! ## Names of imports -/

theorem mentions_of_cut? (t : Tree) {x : String} {parts : String × String}
    (hx : Text.cut? '.' x = some parts) : mentions t parts.1 x = true := by
  have hdot : '.' ∈ x.toList := by
    rw [(Text.cut?_eq_some_iff.mp hx).1]
    simp
  rw [mentions, Text.before, hx]
  simp [hdot]

theorem mentions_self {t : Tree} {x : String} (hx : Text.cut? '.' x = none)
    (htype : t.findType? x = none) : mentions t x x = true := by
  rw [mentions, Text.before, hx, htype]
  simp

theorem findType?_of_typeIn? {t : Tree} {x : String} {args : List Ty}
    (h : typeIn? t x args = none) : t.findType? x = none := by
  cases hfind : t.findType? x with
  | none => rfl
  | some n =>
    have hn := List.find?_some hfind
    rw [typeIn?, hfind, Option.bind_eq_bind, Option.bind_some] at h
    cases hkind : t.kind? n with
    | none => rw [hkind] at hn; cases hn
    | some kind =>
      rw [hkind] at hn h
      cases kind with
      | «class» | typeAlias => cases h
      | _ => cases hn

/-! ## Names that lead to other modules -/

section Queries

variable {t : Tree} (ht : Grounded W.held t)
include ht

omit ht in
theorem importTarget?_eq (t : Tree) (x : String) : importTarget? t x =
    match t.importNamed? x with
    | some i => resolveModule? t i.uri
    | none => pure none := by
  rw [importTarget?, Tree.importNamed?]
  generalize t.imports.find? _ = found
  cases found <;> rfl

/-- A name that stands for the same import leads to the same module. -/
theorem parallel_importTarget? {x : String} (hx : (w.tree t).importNamed? x = t.importNamed? x) :
    Parallel W V (w.Carried (Option.map w.tree)) (importTarget? t x)
      (importTarget? (w.tree t) x) := by
  rw [importTarget?_eq, importTarget?_eq, hx]
  cases hfind : t.importNamed? x with
  | none => exact .pure ⟨.none, rfl⟩
  | some i =>
    obtain ⟨e, he, rfl⟩ := Option.map_eq_some_iff.mp hfind
    have huri := uriAt?_of_mem_imports (i := e.2) (List.mem_of_find?_eq_some he)
    exact w.parallel_resolveModule? ht huri

variable {args : List Ty} (hargs : Grounded W.held args)
include hargs

theorem parallel_qualifiedType? {binding : String}
    (hbinding : (w.tree t).importNamed? binding = t.importNamed? binding) (x : String) :
    Parallel W V (w.Carried (Option.map w.ty)) (qualifiedType? t binding x args)
      (qualifiedType? (w.tree t) binding x (args.map w.ty)) := by
  refine (w.parallel_importTarget? ht hbinding).bind ?_
  rintro found _ ⟨hfound, rfl⟩
  cases found with
  | none => exact .pure ⟨.none, rfl⟩
  | some m =>
    refine (w.parallel_supermodules hfound.of_some).bind ?_
    rintro ms _ ⟨hms, rfl⟩
    have hall : Grounded W.held (m :: ms) := .cons hfound.of_some hms
    exact .pure ⟨.firstExported? hall x hargs, w.firstExported?_tree hall x args⟩

/-- The name of a type that the module does not declare itself may be that of an import. -/
theorem parallel_simpleType? {x : String}
    (hx : typeIn? t x args = none → (w.tree t).importNamed? x = t.importNamed? x) :
    Parallel W V (w.Carried (Option.map w.ty)) (simpleType? t x args)
      (simpleType? (w.tree t) x (args.map w.ty)) := by
  have hmem := Store.IsPlain.mem_held ht
  rw [simpleType?, simpleType?, w.typeIn?_tree hmem]
  cases hown : typeIn? t x args with
  | some found => exact .pure ⟨hown ▸ ht.typeIn? x hargs, rfl⟩
  | none =>
    refine (w.parallel_supermodules ht).bind ?_
    rintro ms _ ⟨hms, rfl⟩
    rw [w.firstExported?_tree hms]
    cases hinherited : firstExported? ms x args with
    | some found => exact .pure ⟨hinherited ▸ .firstExported? hms x hargs, rfl⟩
    | none =>
      refine (w.parallel_importTarget? ht (hx hown)).bind ?_
      rintro found _ ⟨hfound, rfl⟩
      cases found with
      | some m =>
        have hm := hfound.of_some
        exact .pure ⟨.some hm.moduleType,
          congrArg some (w.moduleType_tree (Store.IsPlain.mem_held hm))⟩
      | none =>
        -- the base module is not the widened one
        have hbase := w.typeIn?_tree W.base_mem_held x args
        rw [w.tree_base] at hbase
        exact .pure ⟨Grounded.base.typeIn? x hargs, hbase⟩

theorem parallel_namedType {x : String} (hx : t.AgreesOn (w.tree t) x) :
    Parallel W V (w.Carried w.ty) (namedType t x args)
      (namedType (w.tree t) x (args.map w.ty)) := by
  have hgetD : ∀ found : Option Ty,
      (found.map w.ty).getD .unknown = w.ty (found.getD .unknown) := by
    intro found
    cases found <;> rfl
  rw [namedType, namedType]
  cases hcut : Text.cut? '.' x with
  | none =>
    refine (w.parallel_simpleType? ht hargs fun hown => hx x ?_).bind ?_
    · exact mentions_self hcut (findType?_of_typeIn? hown)
    rintro found _ ⟨hfound, rfl⟩
    exact .pure ⟨hfound.getD .unknown, hgetD found⟩
  | some parts =>
    refine (w.parallel_qualifiedType? ht hargs (hx _ (mentions_of_cut? t hcut)) parts.2).bind ?_
    rintro found _ ⟨hfound, rfl⟩
    exact .pure ⟨hfound.getD .unknown, hgetD found⟩

end Queries

/-! ## Annotations -/

theorem base_decls : ∀ d ∈ BaseModule.types.decls, w.decl d = d := fun _ hd => w.decl_base hd

mutual

/-- An annotation has the same type if its names may lead to the same imports. -/
theorem parallel_resolveType {t : Tree} (ht : Grounded W.held t) (context : Nat) (a : TypeExpr)
    (ha : ∀ x ∈ a.names, t.AgreesOn (w.tree t) x) :
    Parallel W V (w.Carried w.ty) (resolveType t context a)
      (resolveType (w.tree t) (w.index t context) a) := by
  cases a with
  | unknown => exact .pure ⟨.unknown, rfl⟩
  | nothing => exact .pure ⟨.nothing, rfl⟩
  | enclosingModule =>
    exact .pure ⟨ht.moduleType, w.moduleType_tree (Store.IsPlain.mem_held ht)⟩
  | literal text => exact .pure ⟨.literal text, rfl⟩
  | nullable a =>
    rw [resolveType, resolveType]
    refine (parallel_resolveType ht context a ha).bind ?_
    rintro type _ ⟨htype, rfl⟩
    exact .pure ⟨htype.orNull, (Relabelling.ty_orNull w.base_decls type).symm⟩
  | union as =>
    rw [resolveType, resolveType]
    refine (parallel_resolveTypes ht context as ha).bind ?_
    rintro types _ ⟨htypes, rfl⟩
    exact .pure ⟨htypes.unionOf, (Relabelling.ty_unionOf w.base_decls types).symm⟩
  | function ps r =>
    obtain ⟨hps, hr⟩ := List.forall_mem_append.mp ha
    rw [resolveType, resolveType]
    refine (parallel_resolveTypes ht context ps hps).bind ?_
    rintro params _ ⟨hparams, rfl⟩
    refine (parallel_resolveType ht context r hr).bind ?_
    rintro result _ ⟨hresult, rfl⟩
    refine .pure ⟨Grounded.function_iff.mpr ⟨hparams, hresult⟩, ?_⟩
    rw [Relabelling.ty, Relabelling.tys_eq_map]
  | named x args =>
    obtain ⟨hx, hargs⟩ := List.forall_mem_cons.mp ha
    have hparam := w.typeParam?_tree (Store.IsPlain.mem_held ht) context x
    rw [resolveType, resolveType, hparam]
    have hrest : Parallel W V (w.Carried w.ty)
        (resolveTypes t context args >>= fun types => namedType t x types)
        (resolveTypes (w.tree t) (w.index t context) args >>= fun types =>
          namedType (w.tree t) x types) := by
      refine (parallel_resolveTypes ht context args hargs).bind ?_
      rintro types _ ⟨htypes, rfl⟩
      exact w.parallel_namedType ht htypes hx
    cases args.isEmpty with
    | false => exact hrest
    | true =>
      cases hfound : typeParam? t context x with
      | none => exact hrest
      | some param => exact .pure ⟨Grounded.typeParam? t context x param hfound, rfl⟩
termination_by structural a

theorem parallel_resolveTypes {t : Tree} (ht : Grounded W.held t) (context : Nat)
    (as : List TypeExpr) (has : ∀ x ∈ TypeExpr.namesOfAll as, t.AgreesOn (w.tree t) x) :
    Parallel W V (w.Carried (List.map w.ty)) (resolveTypes t context as)
      (resolveTypes (w.tree t) (w.index t context) as) := by
  cases as with
  | nil => exact .pure ⟨.nil, rfl⟩
  | cons a as =>
    obtain ⟨ha, has⟩ := List.forall_mem_append.mp has
    rw [resolveTypes, resolveTypes]
    refine (parallel_resolveType ht context a ha).bind ?_
    rintro type _ ⟨htype, rfl⟩
    refine (parallel_resolveTypes ht context as has).bind ?_
    rintro types _ ⟨htypes, rfl⟩
    exact .pure ⟨.cons htype htypes, rfl⟩
termination_by structural as

end

/-- An annotation that stands at a node has the same type. -/
theorem parallel_annotation {t : Tree} (ht : Grounded W.held t) {n : Nat} {kind : NodeKind}
    (hkind : t.kind? n = some kind) {a : TypeExpr} (ha : a ∈ annotationsAt kind) :
    Parallel W V (w.Carried w.ty) (resolveType t n a) (resolveType (w.tree t) (w.index t n) a) :=
  w.parallel_resolveType ht n a (w.agreesWith_tree (Store.IsPlain.mem_held ht) n kind hkind a ha)

end PklAnalysis.Widening
