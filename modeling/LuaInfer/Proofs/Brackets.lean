import LuaInfer.Proofs.Receiver
/-!
# Literal keys in brackets

`t["k"]` names the same member as `t.k`. Commands that write one for the other build twins (`Command.Bracketed.mirrors`), and
sessions over twins are alike if the two programs agree on receivers. They do not always: a function that is assigned in
brackets has no receiver, although one that is assigned after a dot has (`Env.receiverOf?_of_inBrackets`). Nothing else differs
(`Program.bracketed_indistinguishable`), but this does (`Program.bracketed_loses_receiver`).
-/

namespace LuaInfer

namespace Command

open Build

/-- A command and itself, or the same access with its key in brackets. -/
inductive Bracketed : Command → Command → Prop
  | same (c : Command) : Bracketed c c
  | getField (base : DeclId) (key : String) : Bracketed (.getField base key) (.getIndex base (some key))
  | setField (base : DeclId) (key : String) (value : DeclId) :
      Bracketed (.setField base key value) (.setIndex base (some key) value)

/-- A command and the same access with its key in brackets do the same. -/
theorem Bracketed.mirrors {c c' : Command} (h : Bracketed c c') : Mirrors .bracket c.run c'.run := by
  have hintern : ∀ key, Option.mapM intern (some key) = some <$> intern key := fun _ => rfl
  cases h with
  | same => exact c.run_mirrors
  | getField base key =>
    simp only [run, made, hintern, bind_map_left]
    exact .map (.bind (intern_mirrors key) fun _ => addMember_mirrors base rfl rfl)
  | setField base key value =>
    simp only [run, made, hintern, bind_map_left]
    exact .map (.bind (intern_mirrors key) fun _ => addMember_mirrors base rfl rfl)

end Command

/-- The function that a parameter belongs to is assigned to a member whose key is in brackets. -/
def Arena.InBrackets (a : Arena) (d : DeclId) : Prop :=
  ∃ func site base key value, a.parent? d = some func ∧ a.parent? func = some site ∧
    a.kind? site = some (.setMember base (.index key) value)

namespace Env

variable {env env' : Env}

/-- A function that is assigned in brackets has no receiver. -/
theorem receiverOf?_of_inBrackets {d : DeclId} (h : env.arena.InBrackets d) : env.receiverOf? d = none := by
  obtain ⟨func, site, base, key, value, hfunc, hsite, hkind⟩ := h
  unfold receiverOf?
  split
  · refine Option.eq_none_iff_forall_ne_some.mpr fun object h => ?_
    obtain ⟨_, -, h⟩ := Option.bind_eq_some_iff.mp h
    obtain ⟨func', hfunc', h⟩ := Option.bind_eq_some_iff.mp h
    obtain rfl : func = func' := Option.some.inj (hfunc.symm.trans hfunc')
    obtain ⟨_, -, h⟩ := Option.bind_eq_some_iff.mp h
    obtain ⟨site', hsite', h⟩ := Option.bind_eq_some_iff.mp h
    obtain rfl : site = site' := Option.some.inj (hsite.symm.trans hsite')
    obtain ⟨kind, hkind', h⟩ := Option.bind_eq_some_iff.mp h
    obtain rfl : _ = kind := Option.some.inj (hkind.symm.trans hkind')
    cases h
  · rfl

theorem receiver?_dotted_bracket {d : DeclId} (hd : ¬ env.arena.InBrackets d) (name : Atom) (role : Role) :
    (env.dotted .bracket).receiver? d name role = env.receiver? d name role := by
  unfold receiver?
  rw [dotted_arena, Arena.parent?_dotted]
  refine bind_congr fun _ => Option.bind_congr fun func hfunc => ?_
  rw [Arena.params_dotted, Arena.parent?_dotted]
  refine bind_congr fun _ => Option.bind_congr fun site hsite => ?_
  rw [Arena.kind?_dotted]
  cases hk : env.arena.kind? site with
  | none => rfl
  | some kind =>
    cases kind with
    | setMember base member value =>
      cases member with
      | index key => exact absurd ⟨func, site, base, key, value, hfunc, hsite, hk⟩ hd
      | _ => rfl
    | _ => rfl

/-- Whatever else is written in brackets, a function that is not assigned in brackets has its receiver. -/
theorem receiverOf?_eq_of_not_inBrackets (h : env'.dotted .bracket = env.dotted .bracket) {d : DeclId}
    (hd : ¬ env.arena.InBrackets d) (hd' : ¬ env'.arena.InBrackets d) : env'.receiverOf? d = env.receiverOf? d := by
  have hdot : ∀ {e : Env}, ¬ e.arena.InBrackets d → (e.dotted .bracket).receiverOf? d = e.receiverOf? d := by
    intro e hd
    unfold receiverOf?
    rw [dotted_arena, Arena.kind?_dotted]
    cases e.arena.kind? d with
    | none => rfl
    | some kind =>
      cases kind with
      | localVar name role value refs => exact receiver?_dotted_bracket hd name role
      | _ => rfl
  rw [← hdot hd', h, hdot hd]

/-- Receivers are found among the declarations. -/
theorem receivers_eq_of_lt (hsize : env'.arena.size = env.arena.size)
    (h : ∀ i < env.arena.size, env'.receiverOf? ⟨i⟩ = env.receiverOf? ⟨i⟩) (d : DeclId) :
    env'.receiverOf? d = env.receiverOf? d := by
  by_cases hd : d.index < env.arena.size
  · exact h d.index hd
  · have hnone : ∀ {e : Env}, ¬ d.index < e.arena.size → e.receiverOf? d = none := by
      intro e he
      have hkind : e.arena.kind? d = none := by
        simpa [Arena.kind?, Arena.decl?, Arena.size] using he
      simp [receiverOf?, hkind]
    rw [hnone hd, hnone (hsize ▸ hd)]

end Env

namespace Program

/-- A literal key in brackets is a field, but for receivers. Let some of the fields that a script reads or assigns be written
with their key in brackets. The replies are the same, and so are the texts, the globals, the groups of accesses and the global of
each declaration. A receiver stands for the same object, unless its function is assigned in brackets in one of the programs.
If all receivers stand for the same objects, no query tells the two programs apart: after any queries on fresh sessions, the
answers are the same, and the sessions are the same in everything but how the journal names declarations. -/
theorem bracketed_indistinguishable {start : Program} (hstart : start = empty ∨ start = withBuiltins)
    {script script' : List Command} (hs : List.Forall₂ Command.Bracketed script script') (options : Options) :
    (start.build script').1 = (start.build script).1 ∧
    (start.build script').2.interner = (start.build script).2.interner ∧
    (start.build script').2.globals = (start.build script).2.globals ∧
    (start.build script').2.identities = (start.build script).2.identities ∧
    (∀ d, (start.build script').2.arena.global? d = (start.build script).2.arena.global? d) ∧
    (∀ d, ¬ (start.build script).2.arena.InBrackets d → ¬ (start.build script').2.arena.InBrackets d →
      (Env.of (start.build script').2 options).receiverOf? d = (Env.of (start.build script).2 options).receiverOf? d) ∧
    ((∀ d, (Env.of (start.build script').2 options).receiverOf? d = (Env.of (start.build script).2 options).receiverOf? d) →
      (∀ qs, Resolve.Agree Session.Alike (Session.fresh.askAll (.of (start.build script).2 options) qs)
        (Session.fresh.askAll (.of (start.build script').2 options) qs)) ∧
      ∀ fuel key, Resolve.Carries Session.Alike ((Env.of (start.build script).2 options).compileSlot fuel key)
        ((Env.of (start.build script').2 options).compileSlot fuel key)) := by
  have htwin : start.Twin .bracket start := by
    rcases hstart with h | h
    · rw [h]
      exact twin_empty
    · rw [h]
      exact twin_withBuiltins
  obtain ⟨hreplies, hbuilt⟩ := htwin.build (fun _ _ hc => hc.mirrors) hs
  have hdotted := hbuilt.dotted_env options
  refine ⟨hreplies, hbuilt.interner, hbuilt.globals, hbuilt.identities, fun d => ?_, fun d hd hd' => ?_, fun hrec => ?_⟩
  · exact hbuilt.view (·.global? d) (·.global?_dotted d)
  · exact Env.receiverOf?_eq_of_not_inBrackets hdotted hd hd'
  · have henv : (Env.of (start.build script).2 options).Twin .bracket (.of (start.build script').2 options) :=
      ⟨hdotted, hrec⟩
    exact ⟨henv.askAll (.refl _), henv.compileSlot_carries⟩

/-- `local t = {}; t.k = 1; t.k` -/
def sampleFields : List Command :=
  [.table [], .localVar "t" (some ⟨0⟩), .getLocal ⟨1⟩, .integer 1, .setField ⟨2⟩ "k" ⟨3⟩, .getLocal ⟨1⟩, .getField ⟨5⟩ "k"]

/-- `local t = {}; t["k"] = 1; t["k"]` -/
def sampleKeys : List Command :=
  [.table [], .localVar "t" (some ⟨0⟩), .getLocal ⟨1⟩, .integer 1, .setIndex ⟨2⟩ (some "k") ⟨3⟩, .getLocal ⟨1⟩,
    .getIndex ⟨5⟩ (some "k")]

/-- Assigned and read in brackets, a field has its value. -/
theorem bracketed_indistinguishable_field : List.Forall₂ Command.Bracketed sampleFields sampleKeys ∧
    ∃ answers s s', Session.fresh.askAll (.of (empty.build sampleFields).2 {}) [.decl ⟨6⟩] = .ok (answers, s) ∧
      s.cache.members (s.cache.node? (.decl ⟨6⟩)) = [.leaf ⟨3⟩] ∧
      Session.fresh.askAll (.of (empty.build sampleKeys).2 {}) [.decl ⟨6⟩] = .ok (answers, s') ∧ s.Alike s' := by
  have hs : List.Forall₂ Command.Bracketed sampleFields sampleKeys :=
    .cons (.same _) (.cons (.same _) (.cons (.same _) (.cons (.same _) (.cons (.setField ..) (.cons (.same _)
      (.cons (.getField ..) .nil))))))
  obtain ⟨⟨answers, s⟩, hask, hmembers⟩ := Except.exists_ok
    (x := Session.fresh.askAll (.of (empty.build sampleFields).2 {}) [.decl ⟨6⟩])
    (f := fun r => r.2.cache.members (r.2.cache.node? (.decl ⟨6⟩))) (b := [.leaf ⟨3⟩]) (by decide +kernel)
  have hstart : empty = empty ∨ empty = withBuiltins := .inl rfl
  obtain ⟨-, -, -, -, -, -, hqueries⟩ := bracketed_indistinguishable hstart hs {}
  obtain ⟨hqueries, -⟩ := hqueries (Env.receivers_eq_of_lt (by decide +kernel) (by decide +kernel))
  have hagree := hqueries [.decl ⟨6⟩]
  rw [hask] at hagree
  generalize Session.fresh.askAll (.of (empty.build sampleKeys).2 {}) [.decl ⟨6⟩] = x at hagree
  cases hagree with
  | returned halike => exact ⟨hs, answers, s, _, hask, hmembers, rfl, halike⟩

/-- `local obj = {}; obj.m = function(self) end` -/
def sampleSelf : List Command :=
  [.table [], .localVar "obj" (some ⟨0⟩), .getLocal ⟨1⟩, .function ["self"], .setField ⟨2⟩ "m" ⟨4⟩]

/-- `local obj = {}; obj["m"] = function(self) end` -/
def sampleSelfKey : List Command :=
  [.table [], .localVar "obj" (some ⟨0⟩), .getLocal ⟨1⟩, .function ["self"], .setIndex ⟨2⟩ (some "m") ⟨4⟩]

/-- Assigned after a dot, `self` is itself, `obj` and the table that `obj` has; assigned in brackets, it is only itself. -/
theorem bracketed_loses_receiver : List.Forall₂ Command.Bracketed sampleSelf sampleSelfKey ∧
    (∃ answers s, Session.fresh.askAll (.of (empty.build sampleSelf).2 {}) [.decl ⟨3⟩] = .ok (answers, s) ∧
      s.cache.members (s.cache.node? (.decl ⟨3⟩)) = [.leaf ⟨3⟩, .leaf ⟨1⟩, .leaf ⟨0⟩]) ∧
    ∃ answers s, Session.fresh.askAll (.of (empty.build sampleSelfKey).2 {}) [.decl ⟨3⟩] = .ok (answers, s) ∧
      s.cache.members (s.cache.node? (.decl ⟨3⟩)) = [.leaf ⟨3⟩] := by
  refine ⟨.cons (.same _) (.cons (.same _) (.cons (.same _) (.cons (.same _) (.cons (.setField ..) .nil)))), ?_, ?_⟩
  · obtain ⟨⟨answers, s⟩, hask, hmembers⟩ := Except.exists_ok
      (x := Session.fresh.askAll (.of (empty.build sampleSelf).2 {}) [.decl ⟨3⟩])
      (f := fun r => r.2.cache.members (r.2.cache.node? (.decl ⟨3⟩))) (b := [.leaf ⟨3⟩, .leaf ⟨1⟩, .leaf ⟨0⟩])
      (by decide +kernel)
    exact ⟨answers, s, hask, hmembers⟩
  · obtain ⟨⟨answers, s⟩, hask, hmembers⟩ := Except.exists_ok
      (x := Session.fresh.askAll (.of (empty.build sampleSelfKey).2 {}) [.decl ⟨3⟩])
      (f := fun r => r.2.cache.members (r.2.cache.node? (.decl ⟨3⟩))) (b := [.leaf ⟨3⟩]) (by decide +kernel)
    exact ⟨answers, s, hask, hmembers⟩

end Program

end LuaInfer
