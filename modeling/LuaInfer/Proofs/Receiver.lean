import LuaInfer.Proofs.Carry
import LuaInfer.Proofs.Dotted
import Mathlib.Tactic.Simps.Basic
/-!
# Implicit and explicit receivers

`Env.dotted` is an environment in dot notation; the lemmas here say, for each function that a rule is made of, that it is the
same function there. The one exception is the object that a receiver stands for, so environments are twins if they also agree on
receivers (`Env.Twin`); their rules are the same then (`Env.Twin.runRule`). With parameters named `self` linked, it makes no
difference to a receiver whether the method is written with a colon (`Env.LinksReceivers.receiver?_dotted`). Only the journal
shows the notation, since it names the kind of each declaration. So sessions over twins stay alike (`Session.Alike`): the same
in everything but these names.
-/

namespace LuaInfer

variable {ν : Spelling}

namespace Arena

variable (a : Arena) (d : DeclId)

/-- A walk that asks for kinds that look alike in both notations. -/
theorem anyBelow_dotted {p : DeclKind → Bool} (hp : ∀ kind, p (kind.dotted ν) = p kind) :
    (a.dotted ν).anyBelow p d = a.anyBelow p d := by
  have hwalk : ∀ fuel d seen, (a.dotted ν).walkFrom (fun _ kind => !p kind) fuel d seen =
      a.walkFrom (fun _ kind => !p kind) fuel d seen := by
    intro fuel
    induction fuel with
    | zero => intro d seen; rfl
    | succ fuel ih =>
      intro d seen
      unfold walkFrom
      refine a.dotted_cases d rfl fun kind => ?_
      simp [hp, ih]
  unfold anyBelow walk
  rw [size_dotted, hwalk]

theorem setLocal_dotted {target value : DeclId} :
    (a.dotted ν).kind? d = some (.setLocal target value) ↔ a.kind? d = some (.setLocal target value) := by
  refine a.dotted_cases d Iff.rfl fun kind => ?_
  cases ν <;> cases kind <;> first | exact Iff.rfl | simp [DeclKind.dotted]

theorem maxIndex_dotted : (a.dotted ν).maxIndex = a.maxIndex := by
  unfold maxIndex dotted
  rw [Array.foldl_map]
  congr
  funext n decl
  rcases decl with ⟨kind, parent, docs, global⟩
  cases ν <;> cases kind <;> rfl

end Arena

namespace Signature

variable (a : Arena)

@[simp] theorem of?_dotted : of? (a.dotted ν) = of? a := by
  funext func
  unfold of?
  simp only [Arena.docs_dotted]
  refine congrArg (fun names => if (names.foldl register { func }).params.isEmpty then none else
    some (names.foldl register { func })) (List.flatMap_congr fun doc _ => ?_)
  exact a.dotted_cases doc rfl fun kind => by cases ν <;> cases kind <;> rfl

theorem paramUse?_dotted (s : Signature) (kind : DeclKind) : s.paramUse? (kind.dotted ν) = s.paramUse? kind := by
  cases ν <;> cases kind <;> rfl

@[simp] theorem references_dotted (s : Signature) (ty : DeclId) : s.references (a.dotted ν) ty = s.references a ty := by
  apply a.anyBelow_dotted
  intro kind
  rw [paramUse?_dotted]

@[simp] theorem directUses_dotted (s : Signature) (ty : DeclId) : s.directUses (a.dotted ν) ty = s.directUses a ty := by
  have huse : ∀ alt, ((a.dotted ν).kind? alt).bind s.paramUse? = (a.kind? alt).bind s.paramUse? := by
    intro alt
    exact a.dotted_cases alt rfl fun kind => s.paramUse?_dotted kind
  unfold directUses
  simp only [huse]
  exact a.dotted_cases ty rfl fun kind => by cases ν <;> cases kind <;> rfl

end Signature

namespace Env

/-- The environment in dot notation. -/
@[simps]
def dotted (ν : Spelling) (env : Env) : Env := { env with arena := env.arena.dotted ν }

/-- Parameters named `self` are linked, and every implicit receiver has that name. -/
structure LinksReceivers (env : Env) : Prop where
  linking : env.options.selfParameterLinking = true
  names : ∀ d name, (env.arena.kind? d).bind DeclKind.receiverName? = some name → env.selfName = some name

variable (env : Env)

@[simp] theorem isDelegator_dotted : (env.dotted ν).isDelegator = env.isDelegator := by
  funext callee
  unfold isDelegator
  simp only [dotted_arena, dotted_delegator]
  exact env.arena.dotted_cases callee rfl fun kind => by cases ν <;> cases kind <;> rfl

@[simp] theorem acceptsValue_dotted : (env.dotted ν).acceptsValue = env.acceptsValue := by
  funext documented value
  simp [acceptsValue]

@[simp] theorem applies_dotted : (env.dotted ν).applies = env.applies := by
  funext d doc
  unfold applies
  simp only [dotted_arena, Arena.isParam_dotted, Arena.localName?_dotted, Arena.global?_dotted,
    Arena.isAssignTarget_dotted]
  exact env.arena.dotted_cases doc rfl fun kind => by cases ν <;> cases kind <;> rfl

@[simp] theorem annotations_dotted : (env.dotted ν).annotations = env.annotations := by
  funext d
  simp [annotations]

@[simp] theorem argument?_dotted : (env.dotted ν).argument? = env.argument? := by
  funext call position
  unfold argument?
  simp only [dotted_arena]
  refine env.arena.dotted_cases call rfl fun kind => ?_
  cases ν <;> cases kind with
  | call callee args =>
    dsimp only [DeclKind.dotted]
    refine env.arena.dotted_cases callee rfl fun kind => ?_
    cases kind with
    | getMember base member => rcases member with _ | _ | _ | _ <;> rfl
    | _ => rfl
  | _ => rfl

@[simp] theorem inferenceSources_dotted : (env.dotted ν).inferenceSources = env.inferenceSources := by
  funext func call
  have hname : (env.arena.dotted ν).localName? = env.arena.localName? := funext env.arena.localName?_dotted
  unfold inferenceSources
  rw [dotted_arena, Signature.of?_dotted]
  cases Signature.of? env.arena func with
  | none => rfl
  | some sig =>
    dsimp only
    rw [Arena.docs_dotted]
    refine List.filterMap_congr fun doc _ => env.arena.dotted_cases doc rfl fun kind => ?_
    cases ν <;> cases kind with
    | docParam name ty =>
      dsimp only [DeclKind.dotted]
      rw [Signature.directUses_dotted, Arena.params_dotted, hname, argument?_dotted]
    | _ => rfl

/-! ## Rules -/

@[simp] theorem contributions_dotted : (env.dotted ν).contributions = env.contributions := by
  funext ds
  simp [contributions]

@[simp] theorem globalSteps_dotted : (env.dotted ν).globalSteps = env.globalSteps := by
  funext d
  simp [globalSteps]

@[simp] theorem identitySteps_dotted : (env.dotted ν).identitySteps = env.identitySteps := by
  funext d
  simp [identitySteps]

@[simp] theorem callSteps_dotted : (env.dotted ν).callSteps = env.callSteps := by
  funext call callee args index
  unfold callSteps
  rw [isDelegator_dotted]
  rfl

@[simp] theorem listSteps_dotted : (env.dotted ν).listSteps = env.listSteps := by
  funext exprs index
  unfold listSteps
  simp only [dotted_arena, callSteps_dotted]
  cases index with
  | zero => rfl
  | succ position =>
    dsimp only
    cases exprs[position]? with
    | some expr =>
      dsimp only
      exact env.arena.dotted_cases expr rfl fun kind => by cases ν <;> cases kind <;> rfl
    | none =>
      cases exprs.getLast? with
      | none => rfl
      | some expr =>
        dsimp only
        exact env.arena.dotted_cases expr rfl fun kind => by cases ν <;> cases kind <;> rfl

@[simp] theorem varargDocs_dotted : (env.dotted ν).varargDocs = env.varargDocs := by
  funext func
  unfold varargDocs
  simp only [dotted_arena, dotted_varargName, Arena.docs_dotted]
  refine List.filter_congr fun doc _ => ?_
  exact env.arena.dotted_cases doc rfl fun kind => by cases ν <;> cases kind <;> rfl

@[simp] theorem overloads_dotted : (env.dotted ν).overloads = env.overloads := by
  funext func
  unfold overloads
  simp only [dotted_arena, Arena.docs_dotted]
  refine List.filter_congr fun doc _ => ?_
  exact env.arena.dotted_cases doc rfl fun kind => by cases ν <;> cases kind <;> rfl

@[simp] theorem returnTypes_dotted : (env.dotted ν).returnTypes = env.returnTypes := by
  funext func index
  unfold returnTypes
  simp only [dotted_arena, Arena.docs_dotted]
  refine List.filterMap_congr fun doc _ => ?_
  exact env.arena.dotted_cases doc rfl fun kind => by cases ν <;> cases kind <;> rfl

@[simp] theorem returnTypeStep_dotted : (env.dotted ν).returnTypeStep = env.returnTypeStep := by
  funext func ty
  simp [returnTypeStep]

@[simp] theorem returnedSteps_dotted : (env.dotted ν).returnedSteps = env.returnedSteps := by
  funext func index
  unfold returnedSteps
  simp only [dotted_arena, listSteps_dotted]
  refine env.arena.dotted_cases func rfl fun kind => ?_
  cases ν <;> cases kind with
  | function params returns isMethod =>
    refine List.flatMap_congr fun d _ => ?_
    exact env.arena.dotted_cases d rfl fun kind => by cases kind <;> rfl
  | _ => rfl

@[simp] theorem returnRule_dotted : (env.dotted ν).returnRule = env.returnRule := by
  funext func index
  simp [returnRule]

/-! ## Searches -/

@[simp] theorem hunt_dotted : (env.dotted ν).hunt = env.hunt := rfl

@[simp] theorem fieldsNamed_dotted : (env.dotted ν).fieldsNamed = env.fieldsNamed := by
  funext fields key
  simp [fieldsNamed]

@[simp] theorem leafFields_dotted : (env.dotted ν).leafFields = env.leafFields := by
  funext d key
  unfold leafFields
  simp only [dotted_arena, dotted_identities, fieldsNamed_dotted]
  exact env.arena.dotted_cases d rfl fun kind => by cases ν <;> cases kind <;> rfl

@[simp] theorem huntGlobal_dotted : (env.dotted ν).huntGlobal = env.huntGlobal := rfl

@[simp] theorem huntSource_dotted : (env.dotted ν).huntSource = env.huntSource := by
  funext key classes h source
  simp [huntSource]

@[simp] theorem huntSuper_dotted : (env.dotted ν).huntSuper = env.huntSuper := by
  funext classes h name
  unfold huntSuper
  simp only [dotted_arena, dotted_globals]
  exact env.arena.dotted_cases name rfl fun kind => by cases ν <;> cases kind <;> rfl

@[simp] theorem huntSite_dotted : (env.dotted ν).huntSite = env.huntSite := by
  funext key classes h site
  unfold huntSite
  simp only [dotted_arena, fieldsNamed_dotted, huntSource_dotted, huntSuper_dotted]
  exact env.arena.dotted_cases site rfl fun kind => by cases ν <;> cases kind <;> rfl

@[simp] theorem huntClass_dotted : (env.dotted ν).huntClass = env.huntClass := by
  have hfrom : ∀ key fuel, (env.dotted ν).huntClassFrom key fuel = env.huntClassFrom key fuel := by
    intro key fuel
    induction fuel with
    | zero => rfl
    | succ fuel ih =>
      funext g h
      simp [huntClassFrom, ih]
  funext key
  exact hfrom key _

@[simp] theorem searchClass_dotted : (env.dotted ν).searchClass = env.searchClass := by
  funext g key
  simp [searchClass]

@[simp] theorem huntNode_dotted : (env.dotted ν).huntNode = env.huntNode := by
  funext compile key fuel
  induction fuel with
  | zero => rfl
  | succ fuel ih =>
    funext h node
    cases node <;> simp [huntNode, ih]

@[simp] theorem searchNode_dotted : (env.dotted ν).searchNode = env.searchNode := by
  funext compile fuel node key
  simp [searchNode]

@[simp] theorem searchMember_dotted : (env.dotted ν).searchMember = env.searchMember := by
  funext compile fuel base key
  simp [searchMember, huntMember]

/-! ## Steps -/

@[simp] theorem callable?_dotted : (env.dotted ν).callable? = env.callable? := by
  funext node
  cases node with
  | leaf d =>
    unfold callable?
    simp only [dotted_arena]
    exact env.arena.dotted_cases d rfl fun kind => by cases ν <;> cases kind <;> rfl
  | _ => rfl

@[simp] theorem mergeResult_dotted : mergeResult (env.dotted ν) = mergeResult env := by
  funext compile fuel target callee index call
  simp [mergeResult]

@[simp] theorem runStep_dotted : runStep (env.dotted ν) = runStep env := by
  funext compile fuel target step
  cases step <;> simp [runStep]

@[simp] theorem inferBindings_dotted : inferBindings (env.dotted ν) = inferBindings env := by
  funext compile func call
  simp [inferBindings]

@[simp] theorem instantiate_dotted : instantiate (env.dotted ν) = instantiate env := by
  funext compile target sig? bindings depth
  induction depth with
  | zero => rfl
  | succ depth ih =>
    funext ty
    unfold instantiate
    simp only [dotted_arena, ih]
    refine env.arena.dotted_cases ty rfl fun kind => ?_
    simp only [Signature.paramUse?_dotted]
    cases sig?.bind (·.paramUse? kind) with
    | some param => rfl
    | none => cases ν <;> cases kind <;> rfl

@[simp] theorem runSubstitution_dotted : runSubstitution (env.dotted ν) = runSubstitution env := by
  funext compile target i
  simp [runSubstitution]

theorem budget_dotted : (env.dotted ν).budget = env.budget := by
  funext s index
  simp [budget, extent]

/-- All but the object that a receiver stands for is the same for a declaration in dot notation. -/
theorem kindSteps_dotted {d : DeclId} {kind : DeclKind} (hkind : kind.localName? = none) :
    (env.dotted ν).kindSteps d (kind.dotted ν) = env.kindSteps d kind := by
  cases kind with
  | localVar => cases hkind
  | select source index =>
    have hcall : (env.dotted ν).kindSteps d (.select source index) = env.kindSteps d (.select source index) := by
      simp only [kindSteps, dotted_arena, callSteps_dotted]
      exact env.arena.dotted_cases source rfl fun kind => by cases ν <;> cases kind <;> rfl
    cases ν <;> exact hcall
  | _ => cases ν <;> simp [DeclKind.dotted, kindSteps]

/-! ## Receivers -/

/-- The object that a declaration stands for, if it is a receiver. -/
def receiverOf? (d : DeclId) : Option DeclId :=
  match env.arena.kind? d with
  | some (.localVar name role _ _) => env.receiver? d name role
  | _ => none

/-- Without colons, a receiver stands for the same object as a parameter named `self`. -/
theorem LinksReceivers.receiver?_dotted {env : Env} (h : env.LinksReceivers) {d : DeclId} {name : Atom} {role : Role}
    {value : Option DeclId} {refs : List DeclId} (hd : env.arena.kind? d = some (.localVar name role value refs)) :
    (env.dotted .colon).receiver? d name role.dotted = env.receiver? d name role := by
  have hlinked : (env.dotted .colon).isReceiver name role.dotted = env.isReceiver name role := by
    cases role with
    | receiver =>
      have hname := h.names d name (by rw [hd]; rfl)
      simp [Role.dotted, isReceiver, h.linking, hname]
    | param => rfl
    | plain => rfl
  unfold receiver?
  rw [hlinked, dotted_arena, Arena.parent?_dotted]
  refine bind_congr fun _ => bind_congr fun func => ?_
  rw [Arena.params_dotted, Arena.parent?_dotted]
  refine bind_congr fun _ => bind_congr fun site => env.arena.dotted_cases site rfl fun kind => ?_
  cases kind with
  | setMember base member value => cases member <;> rfl
  | _ => rfl

theorem LinksReceivers.receiverOf?_dotted {env : Env} (h : env.LinksReceivers) (d : DeclId) :
    (env.dotted .colon).receiverOf? d = env.receiverOf? d := by
  unfold receiverOf?
  rw [dotted_arena, Arena.kind?_dotted]
  cases hd : env.arena.kind? d with
  | none => rfl
  | some kind =>
    cases kind with
    | localVar name role value refs => exact h.receiver?_dotted hd
    | _ => rfl

/-- Two environments that differ in notation at most, and agree on receivers. -/
structure Twin (ν : Spelling) (env env' : Env) : Prop where
  dotted : env'.dotted ν = env.dotted ν
  receivers : ∀ d, env'.receiverOf? d = env.receiverOf? d

namespace Twin

variable {env env' : Env} (h : env.Twin ν env')
include h

/-- Twins look the same to whoever does not look at the notation. -/
theorem view {α : Type} (f : Env → α) (hf : ∀ e : Env, f (e.dotted ν) = f e) : f env' = f env := by
  rw [← hf, h.dotted, hf]

theorem kind? (d : DeclId) : (env'.arena.kind? d).map (DeclKind.dotted ν) = (env.arena.kind? d).map (DeclKind.dotted ν) := by
  have harena : env'.arena.dotted ν = env.arena.dotted ν := congrArg Env.arena h.dotted
  rw [← Arena.kind?_dotted, harena, Arena.kind?_dotted]

theorem localSteps {d : DeclId} {name : Atom} {role role' : Role} {value : Option DeclId} {refs : List DeclId}
    (hrec : env'.receiver? d name role' = env.receiver? d name role) :
    env'.localSteps d name role' value refs = env.localSteps d name role value refs := by
  unfold Env.localSteps
  dsimp only
  rw [hrec, h.view Env.annotations Env.annotations_dotted, h.view Env.acceptsValue Env.acceptsValue_dotted]
  congr 6
  refine List.filterMap_congr fun use _ => ?_
  have hassigns : ∀ target v, (env'.arena.kind? use = some (.setLocal target v)) =
      (env.arena.kind? use = some (.setLocal target v)) := fun target v =>
    h.view (fun e : Env => e.arena.kind? use = some (.setLocal target v)) fun e => propext (e.arena.setLocal_dotted use)
  split
  · next target v hk' => rw [(hassigns target v).mp hk']
  · next hno =>
    split
    · next target v hk => exact absurd ((hassigns target v).mpr hk) (hno target v)
    · rfl

theorem kindSteps {d : DeclId} {kind kind' : DeclKind} (hk : env.arena.kind? d = some kind)
    (hk' : env'.arena.kind? d = some kind') : env'.kindSteps d kind' = env.kindSteps d kind := by
  have hkind : kind'.dotted ν = kind.dotted ν := by simpa [hk, hk'] using h.kind? d
  cases hname : kind.localName? with
  | none =>
    have hname' : kind'.localName? = none := by
      rw [← kind'.localName?_dotted (ν := ν), hkind, kind.localName?_dotted, hname]
    rw [← env'.kindSteps_dotted (ν := ν) hname', h.dotted, hkind, env.kindSteps_dotted hname]
  | some name =>
    have hrec := h.receivers d
    cases kind with
    | localVar name role value refs =>
      obtain ⟨role', rfl⟩ : ∃ role', kind' = .localVar name role' value refs := by
        cases ν <;> cases kind' <;> simp_all [DeclKind.dotted]
      simp only [receiverOf?, hk, hk'] at hrec
      exact h.localSteps hrec
    | _ => cases hname

theorem declRule : env'.declRule = env.declRule := by
  funext d
  unfold Env.declRule
  rw [h.view Env.globalSteps Env.globalSteps_dotted]
  congr 1
  cases hk : env.arena.kind? d with
  | none =>
    have hnone : env'.arena.kind? d = none := by simpa [hk] using h.kind? d
    rw [hnone]
  | some kind =>
    obtain ⟨kind', hk'⟩ : ∃ kind', env'.arena.kind? d = some kind' := by
      cases hk' : env'.arena.kind? d with
      | none => simpa [hk, hk'] using h.kind? d
      | some kind' => exact ⟨kind', rfl⟩
    rw [hk']
    exact h.kindSteps hk hk'

/-- A rule does not depend on the notation. -/
theorem runRule : Env.runRule env' = Env.runRule env := by
  funext compile fuel target
  have hstep := h.view Env.runStep Env.runStep_dotted
  cases target with
  | decl d => simp only [Env.runRule, h.declRule, hstep]
  | ret func index => simp only [Env.runRule, h.view Env.returnRule Env.returnRule_dotted, hstep]
  | generic i => simp only [Env.runRule, h.view Env.runSubstitution Env.runSubstitution_dotted]

end Twin

end Env

theorem Program.Twin.dotted_env {p p' : Program} (h : p.Twin ν p') (options : Options) :
    (Env.of p' options).dotted ν = (Env.of p options).dotted ν := by
  have hindex : p'.arena.maxIndex = p.arena.maxIndex := h.view Arena.maxIndex Arena.maxIndex_dotted
  unfold Env.of Env.ofParts Env.dotted
  simp only [h.interner, h.arena, h.globals, h.identities, hindex]

/-- Programs that differ in colons at most have twin environments, if parameters named `self` are linked. -/
theorem Program.Twin.env {p p' : Program} (h : p.Twin .colon p') {options : Options}
    (hlink : options.selfParameterLinking = true) : (Env.of p options).Twin .colon (Env.of p' options) := by
  have hlinks : (Env.of p options).LinksReceivers := ⟨hlink, h.names⟩
  have hlinks' : (Env.of p' options).LinksReceivers := ⟨hlink, h.names'⟩
  refine ⟨h.dotted_env options, fun d => ?_⟩
  rw [← hlinks'.receiverOf?_dotted, h.dotted_env, hlinks.receiverOf?_dotted]

/-! ## Sessions -/

/-- The event without the name of what its slot belongs to. -/
def Event.unnamed : Event → Event
  | started query key _ => started query key ""
  | e => e

namespace Session

/-- Two sessions that differ at most in how their journals name what a slot belongs to. -/
structure Alike (s s' : Session) : Prop where
  cache : s'.cache = s.cache
  substitutions : s'.substitutions = s.substitutions
  depth : s'.depth = s.depth
  stats : s'.stats = s.stats
  lookups : s'.lookups = s.lookups
  journal : s'.journal.map Event.unnamed = s.journal.map Event.unnamed

namespace Alike

theorem refl (s : Session) : s.Alike s := ⟨rfl, rfl, rfl, rfl, rfl, rfl⟩

/-- Rules treat sessions that are alike in the same way. -/
theorem frame (target : SlotKey) : Frame Alike target where
  cache _ _ h := h.cache
  substitutions _ _ h := h.substitutions
  depth _ _ h := h.depth
  setNode _ _ node h := { h with cache := congrArg (·.setNode target node) h.cache }
  setSubstitutions _ _ _ h := { h with substitutions := rfl }
  setDepth _ _ _ h := { h with depth := rfl }

variable {s s' : Session} (h : s.Alike s') (key : SlotKey) (kind kind' : String)
include h

theorem noteStart : (s.noteStart key kind).Alike (s'.noteStart key kind') := by
  refine { h with lookups := congrArg (· + 1) h.lookups, journal := ?_ }
  simp [Session.noteStart, Event.unnamed, h.journal, h.lookups]

/-- Counts something, in both alike. -/
theorem count (f : Stats → Stats) : Alike { s with stats := f s.stats } { s' with stats := f s'.stats } :=
  { h with stats := congrArg f h.stats }

theorem noteEnd {query query' : Nat} (hquery : query' = query) (hit : Bool) :
    (s.noteEnd query key hit).Alike (s'.noteEnd query' key hit) := by
  refine { h with journal := ?_ }
  simp [Session.noteEnd, h.journal, h.cache, hquery]

theorem hit (state : SlotState) : (s.hit key kind state).Alike (s'.hit key kind' state) := by
  have hstart := h.noteStart key kind kind'
  cases state with
  | resolved =>
    exact (hstart.count fun stats => { stats with cacheHits := stats.cacheHits + 1 }).noteEnd key hstart.lookups true
  | inProgress =>
    exact (hstart.count fun stats => { stats with cycleHits := stats.cycleHits + 1 }).noteEnd key hstart.lookups true

theorem start : (s.start key kind).Alike (s'.start key kind') := by
  have hcount := (h.noteStart key kind kind').count fun stats => { stats with ruleRuns := stats.ruleRuns + 1 }
  exact { hcount with cache := congrArg (·.start key) hcount.cache }

theorem finish {query query' : Nat} (hquery : query' = query) : (s.finish query key).Alike (s'.finish query' key) := by
  refine noteEnd ?_ key hquery false
  exact { h with cache := congrArg (·.finish key) h.cache }

theorem clear : s.clear.Alike s'.clear :=
  ⟨rfl, rfl, congrArg DepthCounter.reset h.depth, rfl, h.lookups, h.journal⟩

end Alike

end Session

namespace Env.Twin

open Resolve

variable {env env' : Env} (h : env.Twin ν env')
include h

/-- Resolution goes the same way in twin environments. -/
theorem compileSlot_carries (fuel : Nat) (key : SlotKey) :
    Carries Session.Alike (env.compileSlot fuel key) (env'.compileSlot fuel key) := by
  induction fuel generalizing key with
  | zero => exact .throw _
  | succ fuel ih =>
    refine .get_bind fun s s' hs => ?_
    rw [hs.cache]
    cases s.cache.slot? key with
    | some slot => exact .returned (hs.hit key _ _ slot.state)
    | none =>
      have hrule : Carries Session.Alike (Env.runRule env (env.compileSlot fuel) fuel key)
          (Env.runRule env' (env'.compileSlot fuel) fuel key) := by
        rw [h.runRule]
        exact runRule_carries (Session.Alike.frame key) ih fuel
      refine Carries.bind (.of_modifyGet fun t t' ht => ?_) (fun query => .bind hrule fun _ => .of_modifyGet fun t t' ht => ?_)
        s s' hs
      · have hstart := ht.start key (env.slotKind key) (env'.slotKind key)
        exact ⟨hstart.lookups, hstart⟩
      · have hend := ht.finish key (rfl : query = query)
        exact ⟨congrArg (·.node? key) hend.cache, hend⟩

/-- A query is answered in the same way. -/
theorem ask {s s' : Session} (hs : s.Alike s') (q : Query) : Agree Session.Alike (s.ask env q) (s'.ask env' q) := by
  have hbudget : ∀ index, env'.budget s' index = env.budget s index := by
    intro index
    rw [h.view Env.budget Env.budget_dotted]
    unfold Env.budget Env.extent
    rw [hs.substitutions, hs.cache]
  have hcompile : ∀ key, Agree Session.Alike (s.compile env key) (s'.compile env' key) := by
    intro key
    unfold Session.compile
    rw [hbudget]
    exact h.compileSlot_carries _ key s s' hs
  cases q with
  | decl d => exact (hcompile (.decl d)).map _
  | result func index => exact (hcompile (.ret func index)).map _
  | generic i => exact (hcompile (.generic i)).map _
  | search node key =>
    have hsearch : Agree Session.Alike (s.searchNode env node key) (s'.searchNode env' node key) := by
      unfold Session.searchNode
      rw [hbudget, h.view Env.searchNode Env.searchNode_dotted]
      exact searchNode_carries (fun _ _ ht => ht.cache) (h.compileSlot_carries _) _ node key s s' hs
    exact hsearch.map _
  | searchMember base key =>
    have hsearch : Agree Session.Alike (s.searchMember env base key) (s'.searchMember env' base key) := by
      unfold Session.searchMember
      rw [hbudget, h.view Env.searchMember Env.searchMember_dotted]
      exact searchMember_carries (fun _ _ ht => ht.cache) (h.compileSlot_carries _) _ base key s s' hs
    exact hsearch.map _
  | searchClass g key =>
    rw [Session.ask, Session.ask, h.view Env.searchClass Env.searchClass_dotted]
    cases env.searchClass g key with
    | error e => exact .failed
    | ok ds => exact .returned hs
  | signature func =>
    rw [Session.ask, Session.ask, h.view (fun e => Signature.of? e.arena func) (by simp)]
    exact .returned hs
  | setNode key node => exact .returned ((Session.Alike.frame key).setNode s s' node hs)
  | clear => exact .returned hs.clear

/-- Queries are answered in the same way, one after the other. -/
theorem askAll {s s' : Session} (hs : s.Alike s') (qs : List Query) :
    Agree Session.Alike (s.askAll env qs) (s'.askAll env' qs) := by
  induction qs generalizing s s' with
  | nil => exact .returned hs
  | cons q qs ih =>
    have hq := h.ask hs q
    unfold Session.askAll
    generalize s.ask env q = x at hq ⊢
    generalize s'.ask env' q = x' at hq ⊢
    cases hq with
    | failed => exact .failed
    | returned ht =>
      exact (ih ht).map (_ :: ·)

end Env.Twin

namespace Program

/-- Colon definitions and definitions with an explicit `self` are the same program. Let some of the methods of a script,
and some of the assignments of methods, be written in dot notation. The replies are the same, and so are the texts, the
globals and the global of each declaration. If parameters named `self` are linked, no query tells the two programs apart:
after any queries on fresh sessions, the answers are the same, and the sessions are the same in everything but how the
journal names declarations: nodes, members of unions, substitutions and statistics. This is not for want of time: slots are
resolved in the same way with any bound on the work. -/
theorem respelled_indistinguishable {start : Program} (hstart : start = empty ∨ start = withBuiltins)
    {script script' : List Command} (hs : List.Forall₂ Command.Respelled script script') {options : Options}
    (hlink : options.selfParameterLinking = true) :
    (start.build script').1 = (start.build script).1 ∧
    (start.build script').2.interner = (start.build script).2.interner ∧
    (start.build script').2.globals = (start.build script).2.globals ∧
    (∀ d, (start.build script').2.arena.global? d = (start.build script).2.arena.global? d) ∧
    (∀ qs, Resolve.Agree Session.Alike (Session.fresh.askAll (.of (start.build script).2 options) qs)
      (Session.fresh.askAll (.of (start.build script').2 options) qs)) ∧
    ∀ fuel key, Resolve.Carries Session.Alike ((Env.of (start.build script).2 options).compileSlot fuel key)
      ((Env.of (start.build script').2 options).compileSlot fuel key) := by
  have htwin : start.Twin .colon start := by
    rcases hstart with h | h
    · rw [h]
      exact twin_empty
    · rw [h]
      exact twin_withBuiltins
  obtain ⟨hreplies, hbuilt⟩ := htwin.build (fun _ _ hc => hc.mirrors) hs
  have henv := hbuilt.env hlink
  refine ⟨hreplies, hbuilt.interner, hbuilt.globals, fun d => ?_, fun qs => ?_, fun fuel key => ?_⟩
  · exact hbuilt.view (·.global? d) (·.global?_dotted d)
  · exact henv.askAll (.refl _) qs
  · exact henv.compileSlot_carries fuel key

/-- `local obj = {}; function obj:m(x) end` -/
def sampleColon : List Command :=
  [.table [], .localVar "obj" (some ⟨0⟩), .getLocal ⟨1⟩, .method ["x"], .setMethod ⟨2⟩ "m" ⟨5⟩, .nameToken ⟨6⟩]

/-- `local obj = {}; obj.m = function(self, x) end` -/
def sampleDot : List Command :=
  [.table [], .localVar "obj" (some ⟨0⟩), .getLocal ⟨1⟩, .function ["self", "x"], .setField ⟨2⟩ "m" ⟨5⟩, .nameToken ⟨6⟩]

/-- In either notation, `self` is itself, `obj` and the table that `obj` has. -/
theorem respelled_indistinguishable_method : List.Forall₂ Command.Respelled sampleColon sampleDot ∧
    ∃ answers s s', Session.fresh.askAll (.of (empty.build sampleColon).2 {}) [.decl ⟨3⟩, .decl ⟨7⟩] = .ok (answers, s) ∧
      s.cache.members (s.cache.node? (.decl ⟨3⟩)) = [.leaf ⟨3⟩, .leaf ⟨1⟩, .leaf ⟨0⟩] ∧
      Session.fresh.askAll (.of (empty.build sampleDot).2 {}) [.decl ⟨3⟩, .decl ⟨7⟩] = .ok (answers, s') ∧ s.Alike s' := by
  have hs : List.Forall₂ Command.Respelled sampleColon sampleDot :=
    .cons (.same _) (.cons (.same _) (.cons (.same _) (.cons (.method _) (.cons (.setMethod ..) (.cons (.same _) .nil)))))
  obtain ⟨⟨answers, s⟩, hask, hmembers⟩ := Except.exists_ok
    (x := Session.fresh.askAll (.of (empty.build sampleColon).2 {}) [.decl ⟨3⟩, .decl ⟨7⟩])
    (f := fun r => r.2.cache.members (r.2.cache.node? (.decl ⟨3⟩))) (b := [.leaf ⟨3⟩, .leaf ⟨1⟩, .leaf ⟨0⟩])
    (by decide +kernel)
  have hstart : empty = empty ∨ empty = withBuiltins := .inl rfl
  have hlink : ({} : Options).selfParameterLinking = true := rfl
  obtain ⟨-, -, -, -, hqueries, -⟩ := respelled_indistinguishable hstart hs hlink
  have hagree := hqueries [.decl ⟨3⟩, .decl ⟨7⟩]
  rw [hask] at hagree
  generalize Session.fresh.askAll (.of (empty.build sampleDot).2 {}) [.decl ⟨3⟩, .decl ⟨7⟩] = x at hagree
  cases hagree with
  | returned halike => exact ⟨hs, answers, s, _, hask, hmembers, rfl, halike⟩

end Program

end LuaInfer
