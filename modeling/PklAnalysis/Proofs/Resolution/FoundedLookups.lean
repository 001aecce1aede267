import Mathlib.Order.Filter.AtTopBot.Basic
import PklAnalysis.Proofs.Resolution.DeeperLookups
import PklAnalysis.Proofs.Resolution.FaithfulReceivers

/-!
# Looking for members in founded stores

What is looked up by taking types apart is bounded by a depth.  In the worlds of founded stores
there always is an answer from some depth on, whatever has been looked up before, so the look-ups
are faithful, and what is done beyond the bounds does not matter.
-/

namespace PklAnalysis.Session

open Filter Relation

variable {V W : World} {s : Session}

/-- From some depth on there is an answer, which is faithful and always the same. -/
def Ends {α : Type} [Reporting α] (V : World) (f : Nat → OptionT Query α) : Prop :=
  ∀ W s, V ≤ W → s.IsFaithfulTo W → ∃ a s' U, (∀ᶠ depth in atTop, (f depth).run s = (some a, s')) ∧
    W ≤ U ∧ s'.IsFaithfulTo U ∧ Faithful U a

namespace Ends

variable {α β γ : Type} [Reporting α] [Reporting β]

theorem pure {a : α} (ha : Faithful V a) : Ends V fun _ => (Pure.pure a : OptionT Query α) :=
  fun W s hW hs => ⟨a, s, W, .of_forall fun _ => rfl, le_rfl, hs, ha.mono hW⟩

theorem lift {q : Query α} (hq : Faithfully V q) :
    Ends V fun _ => (monadLift q : OptionT Query α) := by
  intro W s hW hs
  obtain ⟨U, hU, hs', ha⟩ := hq.keepsFaith hW hs 0
  exact ⟨(q s).1, (q s).2, U, .of_forall fun _ => rfl, hU, hs', ha⟩

theorem mono {f : Nat → OptionT Query α} (hf : Ends V f) (hVW : V ≤ W) : Ends W f :=
  fun U s hU hs => hf U s (hVW.trans hU) hs

theorem bind {f : Nat → OptionT Query α} {g : Nat → α → OptionT Query β} (hf : Ends V f)
    (hg : ∀ U a, V ≤ U → Faithful U a → Ends U (g · a)) :
    Ends V fun depth => f depth >>= g depth := by
  intro W s hW hs
  obtain ⟨a, s', U, hfound, hU, hs', ha⟩ := hf W s hW hs
  obtain ⟨b, s'', U', hrest, hU', hs'', hb⟩ := hg U a (hW.trans hU) ha U s' le_rfl hs'
  refine ⟨b, s'', U', ?_, hU.trans hU', hs'', hb⟩
  filter_upwards [hfound, hrest] with depth hfound hrest
  rw [OptionT.run_bind, Option.elimM, bind_apply, hfound]
  exact hrest

/-- What ends does so a step further down. -/
theorem deeper {f : Nat → OptionT Query α} (hf : Ends V f) :
    Ends V fun depth => match depth with
      | 0 => failure
      | depth + 1 => f depth := by
  intro W s hW hs
  obtain ⟨a, s', U, hfound, hfaithful⟩ := hf W s hW hs
  obtain ⟨N, hN⟩ := eventually_atTop.mp hfound
  refine ⟨a, s', U, eventually_atTop.mpr ⟨N + 1, fun depth hdepth => ?_⟩, hfaithful⟩
  obtain ⟨depth, rfl⟩ := Nat.exists_eq_add_of_le' (Nat.one_le_of_lt hdepth)
  exact hN depth (Nat.le_of_succ_le_succ hdepth)

theorem mapM {f : Nat → γ → OptionT Query α} {l : List γ} (h : ∀ c ∈ l, Ends V (f · c)) :
    Ends V fun depth => l.mapM (f depth) := by
  induction l generalizing V with
  | nil =>
    simp only [List.mapM_nil]
    exact .pure .nil
  | cons c l ih =>
    obtain ⟨hc, hl⟩ := List.forall_mem_cons.mp h
    simp only [List.mapM_cons]
    refine hc.bind fun U a hU ha => ?_
    refine (ih fun c hc => (hl c hc).mono hU).bind fun U' as hU' has => ?_
    exact .pure (.cons (ha.mono hU') has)

theorem firstAnswer {f : Nat → γ → OptionT Query (Option α)} {l : List γ}
    (h : ∀ c ∈ l, Ends V (f · c)) : Ends V fun depth => Session.firstAnswer (f depth) l := by
  induction l generalizing V with
  | nil => exact .pure .none
  | cons c l ih =>
    obtain ⟨hc, hl⟩ := List.forall_mem_cons.mp h
    refine hc.bind fun U o hU ho => ?_
    cases o with
    | none => exact ih fun c hc => (hl c hc).mono hU
    | some a => exact .pure ho

theorem anyM {f : Nat → γ → OptionT Query Bool} {l : List γ} (h : ∀ c ∈ l, Ends V (f · c)) :
    Ends V fun depth => l.anyM (f depth) := by
  induction l generalizing V with
  | nil => exact .pure trivial
  | cons c l ih =>
    obtain ⟨hc, hl⟩ := List.forall_mem_cons.mp h
    refine hc.bind fun U b hU _ => ?_
    cases b with
    | false => exact ih fun c hc => (hl c hc).mono hU
    | true => exact .pure trivial

end Ends

/-! ## Taking types apart -/

theorem beneath_of_mem_components {defs : AliasDef → Prop} {base : BaseTypes} {a t : Ty}
    (ha : a ∈ t.components) : Ty.Beneath defs base a t := by
  cases t with
  | nullable b =>
    obtain rfl := List.mem_singleton.mp ha
    exact .nullable a
  | union ms => exact .union ha
  | _ => exact (List.not_mem_nil ha).elim

theorem faithful_of_mem_components {a t : Ty} (ht : Faithful V t) (ha : a ∈ t.components) :
    Faithful V a := by
  cases t with
  | nullable b =>
    obtain rfl := List.mem_singleton.mp ha
    exact Faithful.nullable_iff.mp ht
  | union ms => exact Faithful.union_iff.mp ht a ha
  | _ => exact (List.not_mem_nil ha).elim

section Founded

variable {origin : Store} (horigin : origin.IsFounded)
include horigin

/-- The definition of an alias that is found over a founded store is one that the store provides. -/
theorem provides_of_aliasDef (hs : s.IsFaithfulTo W) (hW : W.origin = origin) {d : DeclRef}
    {a : AliasDef} (ha : (aliasDef d s).1 = some a) : origin.Provides a ∧ a.decl.site = d.site := by
  obtain ⟨U, hU, -, hfound⟩ := (faithful_aliasDef d).keepsFaith le_rfl hs 0
  obtain ⟨hdefines, ⟨t, ht, hplace⟩, -⟩ := hfound a ha
  have hsame : U.origin = origin := hU.1.symm.trans hW
  refine ⟨⟨hsame ▸ hdefines, t, ht.imp_right fun hstored => ?_, hplace⟩, ?_⟩
  · -- without a loader no trees come about
    rwa [Store.tree?, (U.reached.trees (hsame ▸ horigin.loader)).2, hsame] at hstored
  · rw [aliasDef_eq, remembered_apply] at ha
    split at ha
    · next found hremembered => exact (hs.aliases d.site found hremembered).1 a ha
    · exact congrArg DeclRef.site (decl_of_declaredAlias? ha).1

/-- What a type expands to has only what is beneath the type for components. -/
theorem beneath_of_mem_expandFrom (hs : s.IsFaithfulTo W) (hW : W.origin = origin) (n : Nat)
    (seen : List Site) (t : Ty) {b : Ty} (hb : b ∈ (env.expandFrom n seen t s).1.components) :
    TransGen (Ty.Beneath origin.Provides BaseModule.types) b t := by
  generalize hq : env.expandFrom n seen t = q at hb
  induction n generalizing W s seen t q with
  | zero =>
    unfold TypeEnv.expandFrom at hq
    split at hq
    · split at hq <;> exact (List.not_mem_nil (hq ▸ hb)).elim
    · subst hq
      exact .single (beneath_of_mem_components hb)
  | succ n ih =>
    unfold TypeEnv.expandFrom at hq
    split at hq
    · next d args =>
      split at hq
      · subst hq
        exact (List.not_mem_nil hb).elim
      · subst hq
        have henv : env.aliasDef d = aliasDef d := rfl
        dsimp only at hb
        rw [bind_apply, henv] at hb
        obtain ⟨U, hU, hs', -⟩ := (faithful_aliasDef d).keepsFaith le_rfl hs 0
        cases hfound : (aliasDef d s).1 with
        | none =>
          rw [hfound] at hb
          exact (List.not_mem_nil hb).elim
        | some a =>
          rw [hfound] at hb
          obtain ⟨hprovides, hsite⟩ := provides_of_aliasDef horigin hs hW hfound
          have hbeneath := ih hs' (hU.1.symm.trans hW) _ _ _ rfl hb
          exact hbeneath.tail (.target hprovides hsite)
    · subst hq
      exact .single (beneath_of_mem_components hb)

/-- What expands types and goes on with their components ends on all types. -/
theorem ends_of_step {α : Type} [Reporting α] {f step : Nat → Ty → OptionT Query α}
    (hf : ∀ depth t, f depth t = monadLift (env.expand t : Query Ty) >>= step depth)
    (hstep : ∀ U type, Faithful U type → (∀ a ∈ type.components, Ends U (f · a)) →
      Ends U (step · type))
    {t : Ty} (hV : V.origin = origin) (ht : Faithful V t) : Ends V (f · t) := by
  induction t using (horigin.wellFounded BaseModule.types).transGen.induction generalizing V with
  | _ t ih =>
    intro W s hW hs
    have hWorigin : W.origin = origin := hW.1.symm.trans hV
    obtain ⟨U, hU, hs', htype⟩ := (faithful_expand (ht.mono hW)).keepsFaith le_rfl hs 0
    have hrest : Ends U (step · (env.expand t s).1) := by
      refine hstep U _ htype fun a ha => ?_
      have hbeneath := beneath_of_mem_expandFrom horigin hs hWorigin _ _ t ha
      exact ih a hbeneath (hU.1.symm.trans hWorigin) (faithful_of_mem_components htype ha)
    obtain ⟨b, s'', U', hfound, hU', hs'', hb⟩ := hrest U _ le_rfl hs'
    refine ⟨b, s'', U', ?_, hU.trans hU', hs'', hb⟩
    filter_upwards [hfound] with depth hfound
    rw [hf]
    exact hfound

theorem ends_receiverClassesWithin (hV : V.origin = origin) {t : Ty} (ht : Faithful V t) :
    Ends V (receiverClassesWithin · t) := by
  have hpure (U : World) (ds : List DeclRef) :
      Ends U fun _ => (pure ds : OptionT Query (List DeclRef)) := .pure fun _ _ => trivial
  refine ends_of_step horigin (fun depth t => receiverClassesWithin.eq_def depth t)
    (fun U type _ h => ?_) hV ht
  cases type with
  | nullable a =>
    have ha := h a (List.mem_singleton_self a)
    exact (ha.bind fun U' ds _ _ => hpure U' _).deeper
  | union ms => exact ((Ends.mapM h).bind fun U' dss _ _ => hpure U' _).deeper
  | function ps r =>
    simp only
    split <;> exact hpure U _
  | unknown | nothing | «class» | typeAlias | literal | param => exact hpure U _

theorem ends_ownerArgsWithin (owner : DeclRef) (hV : V.origin = origin) {t : Ty}
    (ht : Faithful V t) : Ends V (ownerArgsWithin owner · t) := by
  refine ends_of_step horigin (fun depth t => ownerArgsWithin.eq_def owner depth t)
    (fun U type htype h => ?_) hV ht
  cases type with
  | «class» d args => exact .lift (faithful_asSupertype? htype owner)
  | function ps r =>
    obtain ⟨hps, hr⟩ := Faithful.function_iff.mp htype
    exact .lift (faithful_asSupertype? (hps.functionView hr) owner)
  | nullable a => exact (h a (List.mem_singleton_self a)).deeper
  | union ms => exact (Ends.firstAnswer h).deeper
  | unknown | nothing | typeAlias | literal | param => exact .pure .none

theorem ends_isOpenTypeWithin (hV : V.origin = origin) {t : Ty} (ht : Faithful V t) :
    Ends V (isOpenTypeWithin · t) := by
  refine ends_of_step horigin (fun depth t => isOpenTypeWithin.eq_def depth t)
    (fun U type _ h => ?_) hV ht
  cases type with
  | «class» d args =>
    simp only
    split
    · exact .pure trivial
    · exact .lift (faithful_hasUnknownAncestor d)
  | nullable a => exact (h a (List.mem_singleton_self a)).deeper
  | union ms => exact (Ends.anyM h).deeper
  | unknown | nothing | typeAlias | function | literal | param => exact .pure trivial

end Founded

/-! ## Within all bounds -/

/-- What is faithful down to any depth, and ends over founded stores, is faithful within all
bounds. -/
theorem faithful_bounded {α : Type} [Reporting α] {f : Nat → OptionT Query α} {otherwise : α}
    (hf : ∀ depth, Faithfully V (f depth)) (hends : V.origin.IsFounded → Ends V f)
    (hotherwise : Faithful V otherwise) : Faithfully V (bounded f otherwise) := by
  intro W s hW hs
  refine ⟨fun depth => ?_, fun hfounded => ?_⟩
  · have hgetD : Faithfully V fun [Bounds] =>
        (do return (← (f depth).run).getD otherwise : Query α) :=
      (hf depth).run.bind fun U _ hU ha => .pure (ha.getD (hotherwise.mono hU))
    change KeepsFaith W (@bounded (.atDepth depth) α f otherwise) s
    rw [bounded_atDepth]
    exact hgetD.keepsFaith hW hs depth
  · obtain ⟨a, s', -, hfound, -⟩ := hends (hW.1 ▸ hfounded) W s hW hs
    obtain ⟨depth, hdepth⟩ := eventually_atTop.mp hfound
    refine ⟨depth, a, s', fun B hB => ?_⟩
    change bounded f otherwise s = (a, s')
    rw [bounded, bind_apply, hdepth _ hB]
    rfl

theorem faithful_receiverClasses {t : Ty} (ht : Faithful V t) : Faithfully V (receiverClasses t) :=
  faithful_bounded (fun depth => faithful_receiverClassesWithin depth ht)
    (fun hV => ends_receiverClassesWithin hV rfl ht) fun _ _ => trivial

theorem faithful_ownerArgs? {t : Ty} (ht : Faithful V t) (owner : DeclRef) :
    Faithfully V (ownerArgs? t owner) :=
  faithful_bounded (fun depth => faithful_ownerArgsWithin owner depth ht)
    (fun hV => ends_ownerArgsWithin hV owner rfl ht) .none

theorem faithful_isOpenType {t : Ty} (ht : Faithful V t) : Faithfully V (isOpenType t) :=
  faithful_bounded (fun depth => faithful_isOpenTypeWithin depth ht)
    (fun hV => ends_isOpenTypeWithin hV rfl ht) trivial

theorem faithful_memberOfType? {t : Ty} (ht : Faithful V t) (name : String) (kind : MemberKind) :
    Faithfully V (memberOfType? t name kind) :=
  (faithful_receiverClasses ht).bind fun _ _ _ _ =>
    .firstAnswer fun d _ => faithful_memberOfClass? d name kind

/-- The type of a member is instantiated with the arguments of the receiver and then erased. -/
theorem faithful_memberTypeOn {receiver : Ty} (hreceiver : Faithful V receiver) (owner : DeclRef)
    {declared : Ty} (hdeclared : Faithful V declared) :
    Faithfully V (memberTypeOn receiver owner declared) := by
  refine (faithful_ownerArgs? hreceiver owner).bind fun U args hU hargs => ?_
  cases args with
  | none => exact .pure (hdeclared.mono hU).erase
  | some args => exact .pure ((hdeclared.mono hU).substitute _ hargs.of_some).erase

end PklAnalysis.Session
