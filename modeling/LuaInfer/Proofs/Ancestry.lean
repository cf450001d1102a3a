import LuaInfer.Proofs.Balance
import LuaInfer.Proofs.Draft
import LuaInfer.Proofs.Final
import LuaInfer.Proofs.Search
import Mathlib.Data.List.Chain
/-!
# The search of a class is bounded reachability

A site of a class that has a match of its own hides what its superclasses have; one that has none defers to them. The
search of a class follows this, with a guard that holds the classes on the way and admits no more of them than the depth
limit. `Env.Climbs` is what such a search can find: climbs from class to class that meet no class twice.

`Hunt.Gains` says what a part of a search adds, and how the parts add up. `Env.huntClassFrom_gains`: the search of a
class adds exactly what climbs from it find. A walk that meets a class twice can be cut short (`Env.Walks.climbs`), so the
guard loses nothing, and `Session.searchClass_reaches` puts it in terms of chains of classes.
-/

namespace LuaInfer

/-- The declarations that a class annotation stands above. -/
def DeclKind.classSources : DeclKind → List DeclId
  | docClass _ _ _ sources => sources
  | _ => []

namespace Env

/-- No class annotation stands above a declaration of a class. -/
def SourcesPlain (env : Env) : Prop :=
  ∀ decl ∈ env.arena.decls, ∀ source ∈ decl.kind.classSources,
    (env.arena.global? source).bind env.globals.category? ≠ some .type

instance (env : Env) : Decidable env.SourcesPlain :=
  inferInstanceAs (Decidable (∀ decl ∈ env.arena.decls, ∀ source ∈ decl.kind.classSources, _ ≠ _))

/-- The fields of classes are documented fields, as in every program that is built. -/
def FieldsDocumented (env : Env) : Prop :=
  ∀ d kind, env.arena.kind? d = some kind → ∀ f ∈ kind.classFields, env.arena.IsDocField f

/-- `d` defines `name` on what stands below a class: on the declaration, or on the global variable it stands for. -/
def Beneath (env : Env) (name : Atom) (source d : DeclId) : Prop :=
  d ∈ env.leafFields source name ∨
    ∃ g, env.arena.global? source = some g ∧ env.globals.category? g = some .var ∧ d ∈ env.variableFields g name

/-- `d` is an own match of a site of a class: a documented field of it with that name, or found on one of its sources. -/
def OwnMatch (env : Env) (name : Atom) (site d : DeclId) : Prop :=
  ∃ x supers fields sources, env.arena.kind? site = some (.docClass x supers fields sources) ∧
    (d ∈ fields ∧ (∃ ty, env.arena.kind? d = some (.docField name ty)) ∨ ∃ source ∈ sources, env.Beneath name source d)

/-- The site names the class as a superclass. -/
def Names (env : Env) (site : DeclId) (g : GlobalId) : Prop :=
  ∃ x supers fields sources, env.arena.kind? site = some (.docClass x supers fields sources) ∧
    ∃ super ∈ supers, ∃ y, env.arena.kind? super = some (.tyName y) ∧ env.globals.get? .type y = some g

/-- The class has a site with this own match. -/
def Declares (env : Env) (name : Atom) (g : GlobalId) (d : DeclId) : Prop :=
  ∃ site ∈ env.globals.sites g, env.OwnMatch name site d

/-- The class has a site without own match that names the other class as a superclass. -/
def Defers (env : Env) (name : Atom) (g g' : GlobalId) : Prop :=
  ∃ site ∈ env.globals.sites g, (∀ d, ¬ env.OwnMatch name site d) ∧ env.Names site g'

/-- A walk of at most `n` classes from `g` ends in a class that declares `d`. -/
inductive Walks (env : Env) (name : Atom) : Nat → GlobalId → DeclId → Prop
  | here {n g d} : env.Declares name g d → Walks env name (n + 1) g d
  | up {n g g' d} : env.Defers name g g' → Walks env name n g' d → Walks env name (n + 1) g d

/-- The same, through different classes, none of them among `visited`. -/
inductive Climbs (env : Env) (name : Atom) : List GlobalId → Nat → GlobalId → DeclId → Prop
  | here {visited n g d} : g ∉ visited → env.Declares name g d → Climbs env name visited (n + 1) g d
  | up {visited n g g' d} : g ∉ visited → env.Defers name g g' → Climbs env name (g :: visited) n g' d →
      Climbs env name visited (n + 1) g d

end Env

/-! ## What a part of a search adds -/

namespace Guard

variable {κ : Type} [DecidableEq κ]

/-- The limit on attempts was not passed. -/
def Within (g : Guard κ) : Prop := g.attempts ≤ g.limits.maxAttempts.toNat

/-- All that an attempt can do if the attempts stay within their limit: it is refused at the depth limit and for a key
that is being visited, and only there. -/
theorem enter_within {g g' : Guard κ} {key : κ} {e : Entry} (h : g.enter key = (e, g')) (hw : g'.Within) :
    (g.limits.maxDepth.toNat ≤ g.depth ∧ e ≠ .entered) ∨ (key ∈ g.visiting ∧ e ≠ .entered) ∨
      (g.depth < g.limits.maxDepth.toNat ∧ key ∉ g.visiting ∧ e = .entered) := by
  unfold enter at h
  dsimp only at h
  split at h
  · next hmany =>
    cases h
    exact absurd hw (Nat.not_le_of_lt hmany)
  · split at h
    · next hdepth => cases h; exact .inl ⟨hdepth, by simp⟩
    · next hdepth =>
      split at h
      · next hkey => cases h; exact .inr (.inl ⟨hkey, by simp⟩)
      · next hkey => cases h; exact .inr (.inr ⟨Nat.lt_of_not_le hdepth, hkey, rfl⟩)

theorem attempts_enter (g : Guard κ) (key : κ) : (g.enter key).2.attempts = min (g.attempts + 1) attemptCap := by
  unfold enter
  dsimp only
  split
  · rfl
  · split
    · rfl
    · split <;> rfl

end Guard

namespace Hunt

/-- From `h` to `h'`, the search has found what `S` says, unless it ran out of attempts. The count of attempts stays
at its cap, so a count below the cap was lower before. -/
structure Gains (h h' : Hunt) (S : DeclId → Prop) : Prop where
  keeps : h.Keeps h'
  attempts : min h.guard.attempts Guard.attemptCap ≤ h'.guard.attempts
  nodup : h.found.Nodup → h'.found.Nodup
  found : h'.guard.Within → ∀ d, d ∈ h'.found ↔ d ∈ h.found ∨ S d

variable {h h' h'' : Hunt} {S T : DeclId → Prop}

/-- Limits below the cap, as those of every search are. -/
def Capped (h : Hunt) : Prop := h.guard.limits.maxAttempts.toNat < Guard.attemptCap

theorem Gains.within (hg : h.Gains h' S) (hc : h.Capped) (hw : h'.guard.Within) : h.guard.Within := by
  have ha := hg.attempts
  have hl := congrArg GuardLimits.maxAttempts hg.keeps.limits
  unfold Guard.Within at hw ⊢
  unfold Capped at hc
  rw [hl] at hw
  omega

theorem Gains.congr (hg : h.Gains h' S) (hST : ∀ d, S d ↔ T d) : h.Gains h' T :=
  ⟨hg.keeps, hg.attempts, hg.nodup, fun hw d => by rw [hg.found hw d, hST d]⟩

theorem Gains.refl (h : Hunt) : h.Gains h fun _ => False :=
  ⟨.refl h, Nat.min_le_left _ _, id, by simp⟩

theorem Gains.add (h : Hunt) (ds : List DeclId) : h.Gains (h.add ds) fun d => d ∈ ds :=
  ⟨(Keeps.refl h).add ds, Nat.min_le_left _ _, fun hn => Distinct.nodup_append hn ds, fun _ _ => Hunt.mem_add⟩

theorem Gains.trans (hc : h.Capped) (hg : h.Gains h' S) (hg' : h'.Gains h'' T) : h.Gains h'' fun d => S d ∨ T d := by
  refine ⟨hg.keeps.trans hg'.keeps, ?_, fun hn => hg'.nodup (hg.nodup hn), fun hw d => ?_⟩
  · have ha := hg.attempts
    have ha' := hg'.attempts
    omega
  · have hc' : h'.Capped := by
      unfold Capped
      rw [hg.keeps.limits]
      exact hc
    rw [hg'.found hw d, hg.found (hg'.within hc' hw) d, or_assoc]

/-- What the rounds of a fold add, the fold adds. -/
theorem Gains.foldlM {α : Type} {f : Hunt → α → Except Fault Hunt} {xs : List α} (S : α → DeclId → Prop)
    (hc : h.Capped) (hstep : ∀ x ∈ xs, ∀ a a', h.Keeps a → f a x = .ok a' → a.Gains a' (S x))
    (hk : h.Keeps h') (hr : xs.foldlM f h' = .ok h'') : h'.Gains h'' fun d => ∃ x ∈ xs, S x d := by
  induction xs generalizing h' with
  | nil =>
    cases hr
    exact (Gains.refl _).congr (by simp)
  | cons x xs ih =>
    rw [List.foldlM_cons] at hr
    obtain ⟨a, hx, hr⟩ := Except.bind_ok hr
    have hfirst := hstep x (by simp) h' a hk hx
    have hrest := ih (fun y hy => hstep y (by simp [hy])) (hk.trans hfirst.keeps) hr
    have hc' : h'.Capped := by
      unfold Capped
      rw [hk.limits]
      exact hc
    exact (Gains.trans hc' hfirst hrest).congr fun d => by simp

end Hunt

/-! ## Classes -/

namespace Env

variable {env : Env} {name : Atom} {h h' : Hunt} {classes : GlobalId → Hunt → Except Fault Hunt}

theorem SourcesPlain.not_type (hp : env.SourcesPlain) {site source : DeclId} {x : Atom}
    {supers fields sources : List DeclId} {g : GlobalId}
    (hk : env.arena.kind? site = some (.docClass x supers fields sources)) (hs : source ∈ sources)
    (hg : env.arena.global? source = some g) : env.globals.category? g ≠ some .type := by
  obtain ⟨decl, hdecl, hkind⟩ := Arena.exists_decl_of_kind? hk
  have hplain := hp decl hdecl source (by rwa [hkind])
  rwa [hg, Option.bind_some] at hplain

theorem FieldsDocumented.mem_fieldsNamed (hf : env.FieldsDocumented) {site d : DeclId} {x : Atom}
    {supers fields sources : List DeclId} (hk : env.arena.kind? site = some (.docClass x supers fields sources)) :
    d ∈ env.fieldsNamed fields name ↔ d ∈ fields ∧ ∃ ty, env.arena.kind? d = some (.docField name ty) := by
  rw [Env.mem_fieldsNamed]
  refine and_congr_right fun hd => ?_
  obtain ⟨name', ty, hdoc⟩ := hf site _ hk d hd
  simp [Arena.key?, hdoc, DeclKind.key?]

/-- A source that is no declaration of a class is searched without the guard. -/
theorem huntSource_gains {source : DeclId}
    (hplain : ∀ g, env.arena.global? source = some g → env.globals.category? g ≠ some .type)
    (hr : env.huntSource name classes h source = .ok h') :
    h'.guard = h.guard ∧ ∀ d, d ∈ h'.found ↔ d ∈ h.found ∨ env.Beneath name source d := by
  unfold huntSource at hr
  dsimp only at hr
  split at hr
  · next g hg =>
    unfold huntGlobal at hr
    split at hr
    · next hv =>
      cases hr
      refine ⟨rfl, fun d => ?_⟩
      simp only [Hunt.mem_add, Beneath, hg, Option.some.injEq, exists_eq_left', hv, true_and, or_assoc]
    · next ht => exact absurd ht (hplain g hg)
    · next hnone =>
      cases hr
      refine ⟨rfl, fun d => ?_⟩
      simp [Hunt.mem_add, Beneath, hg, hnone]
  · next hg =>
    cases hr
    refine ⟨rfl, fun d => ?_⟩
    simp [Hunt.mem_add, Beneath, hg]

theorem huntSources_gains {sources : List DeclId}
    (hplain : ∀ source ∈ sources, ∀ g, env.arena.global? source = some g → env.globals.category? g ≠ some .type)
    (hr : sources.foldlM (env.huntSource name classes) h = .ok h') :
    h'.guard = h.guard ∧ ∀ d, d ∈ h'.found ↔ d ∈ h.found ∨ ∃ source ∈ sources, env.Beneath name source d := by
  induction sources generalizing h with
  | nil =>
    cases hr
    simp
  | cons source sources ih =>
    rw [List.foldlM_cons] at hr
    obtain ⟨a, ha, hr⟩ := Except.bind_ok hr
    obtain ⟨hguard, hfound⟩ := huntSource_gains (hplain source (by simp)) ha
    obtain ⟨hguard', hfound'⟩ := ih (fun s hs => hplain s (by simp [hs])) hr
    refine ⟨hguard'.trans hguard, fun d => ?_⟩
    simp [hfound', hfound, or_assoc]

/-- A climb takes a class at least, and its first one was not visited. -/
theorem Climbs.start {visited : List GlobalId} {n : Nat} {g : GlobalId} {d : DeclId} (hc : env.Climbs name visited n g d) :
    0 < n ∧ g ∉ visited := by
  cases hc with
  | here hnew _ => exact ⟨Nat.succ_pos _, hnew⟩
  | up hnew _ _ => exact ⟨Nat.succ_pos _, hnew⟩

section Classes

variable {S : GlobalId → DeclId → Prop} (hc : ∀ g a a', h.Keeps a → classes g a = .ok a' → a.Gains a' (S g))
include hc

theorem huntSuper_gains {super : DeclId} {a a' : Hunt} (hk : h.Keeps a)
    (hr : env.huntSuper classes a super = .ok a') : a.Gains a' fun d =>
      ∃ y g, env.arena.kind? super = some (.tyName y) ∧ env.globals.get? .type y = some g ∧ S g d := by
  unfold huntSuper at hr
  split at hr
  · next y hy =>
    split at hr
    · next g hg => exact (hc g a a' hk hr).congr fun d => by simp [hy, hg]
    · next hg =>
      cases hr
      exact (Hunt.Gains.refl a).congr fun d => by simp [hy, hg]
  · next hy =>
    cases hr
    refine (Hunt.Gains.refl a).congr fun d => ⟨False.elim, ?_⟩
    rintro ⟨y, g, hname, -⟩
    exact hy y hname

/-- A site with own matches adds these; one without adds what the classes it names have. -/
theorem huntSite_gains (hp : env.SourcesPlain) (hf : env.FieldsDocumented) (hcap : h.Capped) {site : DeclId} {a a' : Hunt} (hk : h.Keeps a)
    (hr : env.huntSite name classes a site = .ok a') : a.Gains a' fun d =>
      env.OwnMatch name site d ∨ (∀ e, ¬ env.OwnMatch name site e) ∧ ∃ g, env.Names site g ∧ S g d := by
  unfold huntSite at hr
  split at hr
  · next x supers fields sources hkind =>
    obtain ⟨own, hown, hr⟩ := Except.bind_ok hr
    obtain ⟨hguard, hfound⟩ := huntSources_gains (fun s hs g => hp.not_type hkind hs) hown
    have hmatch : ∀ d, d ∈ own.found ↔ env.OwnMatch name site d := by
      intro d
      simp [hfound, OwnMatch, hkind, hf.mem_fieldsNamed hkind]
    have hnames : ∀ d, (∃ super ∈ supers, ∃ y g, env.arena.kind? super = some (.tyName y) ∧
        env.globals.get? .type y = some g ∧ S g d) ↔ ∃ g, env.Names site g ∧ S g d := by
      intro d
      constructor
      · rintro ⟨super, hsuper, y, g, hy, hg, hd⟩
        exact ⟨g, ⟨x, supers, fields, sources, hkind, super, hsuper, y, hy, hg⟩, hd⟩
      · rintro ⟨g, ⟨_, _, _, _, hkind', super, hsuper, y, hy, hg⟩, hd⟩
        rw [hkind] at hkind'
        cases hkind'
        exact ⟨super, hsuper, y, g, hy, hg, hd⟩
    -- the sources have left the guard as it was, so the superclasses are searched from the same search
    have hsame : ({ a with guard := own.guard } : Hunt) = a := by rw [hguard]
    rw [hsame] at hr
    split at hr
    · next hempty =>
      have hnone : ∀ e, ¬ env.OwnMatch name site e := fun e he => by
        rw [← hmatch e, List.isEmpty_iff.1 hempty] at he
        cases he
      refine (Hunt.Gains.foldlM _ hcap (fun super _ b b' hb hs => huntSuper_gains hc hb hs) hk hr).congr ?_
      intro d
      rw [hnames d]
      exact ⟨fun hd => .inr ⟨hnone, hd⟩, fun hd => hd.elim (fun hd => absurd hd (hnone d)) And.right⟩
    · next hsome =>
      cases hr
      obtain ⟨e, he⟩ := List.exists_mem_of_ne_nil _ fun hnil => hsome (List.isEmpty_iff.2 hnil)
      refine (Hunt.Gains.add a own.found).congr fun d => ?_
      rw [hmatch d]
      exact ⟨.inl, fun hd => hd.elim id fun hd => absurd ((hmatch e).1 he) (hd.1 e)⟩
  · next hkind =>
    cases hr
    refine (Hunt.Gains.refl a).congr fun d => ⟨False.elim, ?_⟩
    rintro (⟨_, _, _, _, hk, -⟩ | ⟨-, g, ⟨_, _, _, _, hk, -⟩, -⟩) <;> exact hkind _ _ _ _ hk

end Classes

/-- By induction on the fuel, from the depth that is left: a refused class adds nothing, and an entered one adds what its
sites have and what climbs from the classes they defer to find, on a way on which the class itself is now visited. -/
theorem huntClassFrom_gains (hp : env.SourcesPlain) (hf : env.FieldsDocumented) {fuel : Nat} {g : GlobalId} (hcap : h.Capped)
    (hr : env.huntClassFrom name fuel g h = .ok h') :
    h.Gains h' (env.Climbs name h.guard.visiting (h.guard.limits.maxDepth.toNat - h.guard.depth) g) := by
  induction fuel generalizing g h h' with
  | zero => cases hr
  | succ fuel ih =>
    rw [huntClassFrom] at hr
    rcases he : h.guard.enter g with ⟨e, entered⟩
    have hatt : entered.attempts = min (h.guard.attempts + 1) Guard.attemptCap := by
      rw [← Guard.attempts_enter h.guard g, he]
    rcases h.guard.enter_cases g with ⟨g', he', hnew, hlt, hl, hv, hd⟩ | ⟨e', g', he', hne, hl, hv, hd⟩ <;>
      rw [he] at he' <;> cases he' <;> rw [he] at hr
    · -- inside, the class is under way on top of those that were
      obtain ⟨a, ha, hr⟩ := Except.bind_ok hr
      obtain ⟨left, hleave, hr⟩ := Except.bind_ok hr
      cases hr
      have hcap' : Hunt.Capped { h with guard := entered } := by
        unfold Hunt.Capped
        rw [hl]
        exact hcap
      have hrest : entered.limits.maxDepth.toNat - entered.depth = h.guard.limits.maxDepth.toNat - h.guard.depth - 1 := by
        rw [hl, hd]
        omega
      have hclasses : ∀ k b b', Hunt.Keeps { h with guard := entered } b → env.huntClassFrom name fuel k b = .ok b' →
          b.Gains b' (env.Climbs name (g :: h.guard.visiting) (h.guard.limits.maxDepth.toNat - h.guard.depth - 1) k) := by
        intro k b b' hb hrun
        have hcapb : b.Capped := by
          unfold Hunt.Capped
          rw [hb.limits]
          exact hcap'
        have hgains := ih hcapb hrun
        rwa [hb.visiting, hb.limits, hb.depth, hrest, hv] at hgains
      have hsites := Hunt.Gains.foldlM _ hcap'
        (fun site _ b b' hb hs => huntSite_gains hclasses hp hf hcap' hb hs) (.refl _) ha
      have hleft : left = { a.guard with visiting := h.guard.visiting, depth := a.guard.depth - 1 } := by
        have hhead : a.guard.visiting = g :: h.guard.visiting := hsites.keeps.visiting.trans hv
        rw [Guard.leave_of_head hhead] at hleave
        cases hleave
        rfl
      subst hleft
      refine ⟨⟨hsites.keeps.limits.trans hl, rfl, ?_⟩, ?_, hsites.nodup, fun hw d => ?_⟩
      · change a.guard.depth - 1 = h.guard.depth
        rw [hsites.keeps.depth]
        change entered.depth - 1 = h.guard.depth
        omega
      · have hmore : min entered.attempts Guard.attemptCap ≤ a.guard.attempts := hsites.attempts
        change min h.guard.attempts Guard.attemptCap ≤ a.guard.attempts
        omega
      · change d ∈ a.found ↔ _
        rw [hsites.found hw d]
        obtain ⟨n, hn⟩ : ∃ n, h.guard.limits.maxDepth.toNat - h.guard.depth = n + 1 := ⟨_, (Nat.sub_add_cancel (by omega)).symm⟩
        rw [hn, Nat.add_sub_cancel]
        refine or_congr Iff.rfl ⟨?_, ?_⟩
        · rintro ⟨site, hsite, hown | ⟨hnone, g', hnames, hclimb⟩⟩
          · exact .here hnew ⟨site, hsite, hown⟩
          · exact .up hnew ⟨site, hsite, hnone, hnames⟩ hclimb
        · rintro (⟨-, site, hsite, hown⟩ | ⟨-, ⟨site, hsite, hnone, hnames⟩, hclimb⟩)
          · exact ⟨site, hsite, .inl hown⟩
          · exact ⟨site, hsite, .inr ⟨hnone, _, hnames, hclimb⟩⟩
    · have hfound : h' = { h with guard := entered } := by
        cases e with
        | entered => exact absurd rfl hne
        | _ => cases hr; rfl
      subst hfound
      refine ⟨⟨hl, hv, hd⟩, by change min _ _ ≤ entered.attempts; omega, id, fun hw d => ?_⟩
      refine ⟨.inl, fun hd => hd.elim id fun hclimb => ?_⟩
      -- a class that is refused can be neither the start of a climb nor on its way
      obtain ⟨hpos, hnew⟩ := hclimb.start
      rcases Guard.enter_within he hw with ⟨hdeep, -⟩ | ⟨hvisited, -⟩ | ⟨-, -, hentered⟩
      · omega
      · exact absurd hvisited hnew
      · exact absurd hentered hne

/-! ## Walks and chains -/

variable {g : GlobalId} {d : DeclId} {m n : Nat}

theorem Walks.mono (hw : env.Walks name m g d) (hmn : m ≤ n) : env.Walks name n g d := by
  induction hw generalizing n with
  | here hd =>
    obtain ⟨n, rfl⟩ := Nat.exists_eq_succ_of_ne_zero (Nat.ne_of_gt (Nat.lt_of_lt_of_le (Nat.succ_pos _) hmn))
    exact .here hd
  | up hdefer _ ih =>
    obtain ⟨n, rfl⟩ := Nat.exists_eq_succ_of_ne_zero (Nat.ne_of_gt (Nat.lt_of_lt_of_le (Nat.succ_pos _) hmn))
    exact .up hdefer (ih (Nat.le_of_succ_le_succ hmn))

theorem Climbs.mono {visited : List GlobalId} (hc : env.Climbs name visited m g d) (hmn : m ≤ n) :
    env.Climbs name visited n g d := by
  induction hc generalizing n with
  | here hnew hd =>
    obtain ⟨n, rfl⟩ := Nat.exists_eq_succ_of_ne_zero (Nat.ne_of_gt (Nat.lt_of_lt_of_le (Nat.succ_pos _) hmn))
    exact .here hnew hd
  | up hnew hdefer _ ih =>
    obtain ⟨n, rfl⟩ := Nat.exists_eq_succ_of_ne_zero (Nat.ne_of_gt (Nat.lt_of_lt_of_le (Nat.succ_pos _) hmn))
    exact .up hnew hdefer (ih (Nat.le_of_succ_le_succ hmn))

theorem Climbs.walks {visited : List GlobalId} (hc : env.Climbs name visited n g d) : env.Walks name n g d := by
  induction hc with
  | here _ hd => exact .here hd
  | up _ hdefer _ ih => exact .up hdefer ih

/-- A walk meets no class twice and none of `visited`, or a walk that is no longer starts in one of `visited`. If it comes
back to its own start, the walk from there is shorter, and it is taken instead. -/
theorem Walks.climbs_or {visited : List GlobalId} (hw : env.Walks name n g d) :
    env.Climbs name visited n g d ∨ ∃ v ∈ visited, env.Walks name n v d := by
  induction n using Nat.strong_induction_on generalizing g visited with
  | _ n ih =>
    by_cases hvisited : g ∈ visited
    · exact .inr ⟨g, hvisited, hw⟩
    · cases hw with
      | here hd => exact .inl (.here hvisited hd)
      | @up n _ g' _ hdefer hrest =>
        have hcut : env.Climbs name (g :: visited) n g' d ∨ ∃ v ∈ g :: visited, env.Walks name n v d :=
          ih n (Nat.lt_succ_self n) hrest
        rcases hcut with hclimb | ⟨v, hv, hback⟩
        · exact .inl (.up hvisited hdefer hclimb)
        · rcases List.mem_cons.1 hv with rfl | hv
          · exact (ih n (Nat.lt_succ_self n) hback).imp (fun hc => hc.mono (Nat.le_succ n))
              fun ⟨w, hw, hback⟩ => ⟨w, hw, hback.mono (Nat.le_succ n)⟩
          · exact .inr ⟨v, hv, hback.mono (Nat.le_succ n)⟩

theorem Walks.climbs (hw : env.Walks name n g d) : env.Climbs name [] n g d :=
  hw.climbs_or.elim id fun ⟨_, hv, _⟩ => nomatch hv

/-- `cs` is a chain of classes from `g`, each deferring to the next, to one that declares `d`. -/
def ChainTo (env : Env) (name : Atom) (g : GlobalId) (cs : List GlobalId) (d : DeclId) : Prop :=
  cs.head? = some g ∧ cs.IsChain (env.Defers name) ∧ ∃ c, cs.getLast? = some c ∧ env.Declares name c d

theorem walks_iff_chainTo : env.Walks name n g d ↔ ∃ cs, cs.length ≤ n ∧ env.ChainTo name g cs d := by
  constructor
  · intro hw
    induction hw with
    | @here n g d hd => exact ⟨[g], by simp, rfl, .singleton g, g, rfl, hd⟩
    | @up n g g' d hdefer _ ih =>
      obtain ⟨cs, hlen, hhead, hchain, c, hlast, hd⟩ := ih
      obtain ⟨cs, rfl⟩ := List.head?_eq_some_iff.1 hhead
      refine ⟨g :: g' :: cs, by simpa using hlen, rfl, .cons_cons hdefer hchain, c, ?_, hd⟩
      rw [List.getLast?_cons_cons, hlast]
  · rintro ⟨cs, hlen, hhead, hchain, c, hlast, hd⟩
    induction cs generalizing g n with
    | nil => cases hhead
    | cons g' cs ih =>
      cases hhead
      obtain ⟨n, rfl⟩ := Nat.exists_eq_add_of_le' hlen
      cases cs with
      | nil => cases hlast; exact .here hd
      | cons g' cs =>
        obtain ⟨hdefer, hrest⟩ := List.isChain_cons_cons.1 hchain
        rw [List.getLast?_cons_cons] at hlast
        have hwalk := Walks.up hdefer (ih (n := n + (cs.length + 1)) (by simp) rfl hrest hlast)
        exact hwalk.mono (by simp only [List.length_cons]; omega)

end Env

namespace Session

/-- A class is searched without looking at the session, and nothing is found twice. If the search made no more attempts than
its guard admits, it has found exactly what chains of classes within the depth limit lead to, each class deferring to the
next and the last one declaring it. -/
theorem searchClass_reaches {p : Program} (hp : p.Built) (options : Options) (hs : (Env.of p options).SourcesPlain)
    (g : GlobalId) (name : Atom) :
    ∃ h, (Env.of p options).huntClass name g (Env.of p options).hunt = .ok h ∧ h.found.Nodup ∧
      (∀ s : Session, s.ask (Env.of p options) (.searchClass g name) = .ok (.decls h.found, s)) ∧
      (h.guard.attempts ≤ Limits.maxGuardAttempts.toNat → ∀ d, d ∈ h.found ↔
        ∃ cs, cs.length ≤ options.maxClassDepth.toNat ∧ (Env.of p options).ChainTo name g cs d) := by
  have hreturns : (Env.of p options).hunt.Returned ((Env.of p options).huntClass name g (Env.of p options).hunt) :=
    Env.huntClass_returns g (.refl _)
  obtain ⟨h, hr, hk⟩ := hreturns
  have hf : (Env.of p options).FieldsDocumented := hp.grounded.docFields
  have hcap : (Env.of p options).hunt.Capped := by
    change (100000 : UInt32).toNat < UInt32.size - 1
    decide
  have hgains := Env.huntClassFrom_gains hs hf hcap hr
  refine ⟨h, hr, hgains.nodup .nil, fun s => ?_, fun hw d => ?_⟩
  · have hsearch : (Env.of p options).searchClass g name = .ok h.found := by
      rw [Env.searchClass, hr]
      exact hk.close rfl
    rw [ask, hsearch]
    rfl
  · have hwithin : h.guard.Within := by
      unfold Guard.Within
      rw [hk.limits]
      exact hw
    rw [hgains.found hwithin d, ← Env.walks_iff_chainTo]
    have hempty : d ∉ (Env.of p options).hunt.found := List.not_mem_nil
    simp only [hempty, false_or]
    exact ⟨Env.Climbs.walks, Env.Walks.climbs⟩

/-- `A: B`, `B: A, C`, and `C` has a field `f`: two classes that extend each other, and a way out of the cycle. -/
def sampleClasses : Program :=
  (Program.empty.build [.docClass "A" ["B"], .docClass "B" ["A", "C"], .docClass "C" [], .tyName "string",
    .docField ⟨5⟩ "f" ⟨6⟩]).2

/-- From `A` the field is found through the cycle, along a chain of at most three classes. -/
theorem searchClass_reaches_cycle : (Env.of sampleClasses { maxClassDepth := 3 }).SourcesPlain ∧
    ∃ h, (Env.of sampleClasses { maxClassDepth := 3 }).huntClass ⟨5⟩ ⟨0⟩ (Env.of sampleClasses { maxClassDepth := 3 }).hunt =
        .ok h ∧ (h.guard.attempts, h.found) = (4, [⟨7⟩]) ∧
      ∃ cs, cs.length ≤ 3 ∧ (Env.of sampleClasses { maxClassDepth := 3 }).ChainTo ⟨5⟩ ⟨0⟩ cs ⟨7⟩ := by
  have hplain : (Env.of sampleClasses { maxClassDepth := 3 }).SourcesPlain := by decide +kernel
  have hbuilt : sampleClasses.Built := ⟨_, .inl rfl⟩
  obtain ⟨h, hr, -, -, hfound⟩ := searchClass_reaches hbuilt { maxClassDepth := 3 } hplain ⟨0⟩ ⟨5⟩
  obtain ⟨h', hr', hsees⟩ := Except.exists_ok
    (x := (Env.of sampleClasses { maxClassDepth := 3 }).huntClass ⟨5⟩ ⟨0⟩ (Env.of sampleClasses { maxClassDepth := 3 }).hunt)
    (f := fun h => (h.guard.attempts, h.found)) (b := (4, [⟨7⟩])) (by decide +kernel)
  rw [hr] at hr'
  cases hr'
  obtain ⟨hattempts, hlist⟩ := Prod.mk.inj hsees
  exact ⟨hplain, h, hr, hsees, (hfound (by rw [hattempts]; decide) ⟨7⟩).1 (by simp [hlist])⟩

end Session

end LuaInfer
