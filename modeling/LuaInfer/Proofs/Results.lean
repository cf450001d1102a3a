import LuaInfer.Proofs.Adjust
import LuaInfer.Proofs.Passing
/-!
# The results that sessions find

There are two ways to tell what slots have. Some slots evaluate, whatever is asked in whatever order (`Reading.evaluating`). And
where no look-up has met a slot under way, finished slots follow their rules (`Reading.finished`). Both are readings, so results are
adjusted in both: a query for a result, or for a selected value of a call, finds the value at its index and nothing else, where a
literal is what its node is (`Session.compileReturn_yields`).

A function literal need not evaluate, since it is its overloads too, and they may lead back to it. If it is asked for first, a
result takes what it is until then (`Session.compileReturn_before_overload`).
-/

namespace LuaInfer

/-! ## Slots that evaluate -/

namespace Env

variable {env : Env} {callee e g l : DeclId}

/-- The members of what is called lead to the function that the local keeps. -/
theorem findSome?_callable (hl : env.arena.kept? l = some g) {exprs : List DeclId} (hg : env.arena.returned? g = some exprs) :
    [TypeNode.leaf l, .leaf g].findSome? env.callable? = some (g, none) := by
  obtain ⟨-, name, refs, hk, -⟩ := Arena.exists_of_kept? hl
  obtain ⟨-, _, _, _, hgk, -⟩ := Arena.exists_of_returned? hg
  simp [callable?, hk, hgk]

variable (hu : env.Unlinked)
include hu

/-- A literal is itself, unless it has overloads. -/
theorem evaluates_literal (h : env.arena.isLiteral e = true)
    (hbare : ∀ doc ∈ env.arena.docs e, ∀ sig, env.arena.kind? doc ≠ some (.docOverload sig)) :
    env.Evaluates 1 (.decl e) [.leaf e] := by
  obtain ⟨kind, hk, hliteral⟩ := (Option.any_eq_true _ _).1 h
  have hrule : env.rule (.decl e) = [.own (.leaf e)] := by
    rw [declRule_of_kind (hu e _ hk (by cases kind <;> first | rfl | cases hliteral)) hk]
    cases kind with
    | function params returns isMethod =>
      have hnone : env.overloads e = [] := by
        refine List.filter_eq_nil_iff.2 fun doc hdoc => ?_
        split
        · next sig hsig => exact absurd hsig (hbare doc hdoc sig)
        · simp
      rw [kindSteps, hnone]
      rfl
    | literal value => rfl
    | table fields => rfl
    | _ => cases hliteral
  refine ⟨by simp, ?_⟩
  rw [hrule]
  exact .singleton (.own rfl) (by simp)

/-- A local that keeps a function is itself and the function. -/
theorem evaluates_local (h : env.arena.kept? l = some g) {exprs : List DeclId} (hg : env.arena.returned? g = some exprs) :
    env.Evaluates 2 (.decl l) [.leaf l, .leaf g] := by
  obtain ⟨hdocsl, name, refs, hk, hrefs⟩ := Arena.exists_of_kept? h
  obtain ⟨hdocsg, _, _, _, hgk, -⟩ := Arena.exists_of_returned? hg
  have hfunction : env.Evaluates 1 (.decl g) [.leaf g] :=
    evaluates_literal hu (by simp [Arena.isLiteral, hgk, DeclKind.isLiteral]) (by simp [hdocsg])
  have hne : l ≠ g := by
    rintro rfl
    rw [hk] at hgk
    cases hgk
  have hrule : env.rule (.decl l) = [.own (.leaf l), .merge g] := by
    have hdocs : env.annotations l = [] := by simp [annotations, hdocsl]
    have hreceiver : env.receiver? l name .plain = none := by simp [receiver?, isReceiver]
    have hinitial : (some g).toList.filter (env.acceptsValue false) = [g] := by simp [acceptsValue]
    rw [declRule_of_kind (hu l _ hk rfl) hk, kindSteps, localSteps, hdocs, hreceiver]
    simp only [List.isEmpty_nil, Bool.not_true, if_true, hinitial, Option.toList_none, List.append_nil, List.nil_append,
      List.map_append, List.map_cons, List.map_nil, List.cons.injEq, true_and, List.append_left_eq_self, List.map_eq_nil_iff,
      List.filterMap_eq_nil_iff]
    intro use huse
    split
    · next target v hset => exact absurd hset (Arena.not_setLocal (hrefs use huse) target v)
    · rfl
  refine ⟨by simp, ?_⟩
  rw [hrule]
  refine ⟨[[.leaf l], [.leaf g]], .cons (.own rfl) (.cons (.merge hfunction) .nil), ?_⟩
  simp [Distinct.concat, Distinct.append, Distinct.add, Ne.symm hne]

/-- So is what names the local. -/
theorem evaluates_callee (hk : env.arena.kind? callee = some (.getLocal l)) (hl : env.arena.kept? l = some g)
    {exprs : List DeclId} (hg : env.arena.returned? g = some exprs) : env.Evaluates 3 (.decl callee) [.leaf l, .leaf g] := by
  have hlocal := evaluates_local hu hl hg
  have hrule : env.rule (.decl callee) = [.merge l] := declRule_of_kind (hu callee _ hk rfl) hk
  refine ⟨by simp, ?_⟩
  rw [hrule]
  exact .singleton (.merge hlocal) hlocal.nodup

end Env

namespace Reading

/-- What slots evaluate to. -/
def evaluating (env : Env) (hu : env.Unlinked) : Reading env where
  Has key ms := ∃ n, env.Evaluates n key ms
  Gives steps ms := ∃ n, Step.AllGive env (env.Evaluates n) steps ms
  Fits ms := ∀ m ∈ ms, m.IsPlain
  fits_nil := by simp
  slot := fun hkey ⟨n, h⟩ => ⟨n + 1, hkey, h⟩
  nothing := ⟨0, .nil⟩
  merge := fun ⟨n, h⟩ => ⟨n, .singleton (.merge h) h.nodup⟩
  result := fun {c g callee l exprs index ms} hk hl hg ⟨n, h⟩ hplain =>
    ⟨n + 3, .singleton (.result ((Env.evaluates_callee hu hk hl hg).mono (Nat.le_add_left 3 n)) (Env.findSome?_callable hl hg)
      (h.mono (Nat.le_add_right n 3)) hplain) h.nodup⟩

/-- What finished slots have in a session that has met no slot under way. -/
def finished {env : Env} (hu : env.Unlinked) {t : Session} (hevaluated : t.Evaluated env) (hfollows : t.Settles env.Follows)
    (h0 : t.stats.cycleHits = 0) : Reading env where
  Has key ms := t.cache.state? key = some .resolved → t.cache.members (t.cache.node? key) = ms
  Gives steps ms := ∀ key, (∀ i, key ≠ .generic i) → env.rule key = steps → t.cache.state? key = some .resolved →
    t.cache.members (t.cache.node? key) = ms
  Fits ms := ∀ m ∈ ms, Env.isTemplate t m = false
  fits_nil := by simp
  slot := fun {key _} hkey h hres => h key hkey rfl hres
  nothing := fun key hkey hrule hres => (hfollows.value h0 key hres).nothing hrule hkey
  merge := by
    intro d ms h key _ hrule hres
    obtain ⟨hst, hmembers⟩ := (hfollows.value h0 key hres).merge d hrule
    exact hmembers.trans (h hst)
  result := by
    intro c g callee l exprs index ms hk hl hg h hfits key _ hrule hres
    obtain ⟨hst, hresult⟩ := (hfollows.value h0 key hres).result callee index c g hrule
    obtain ⟨-, hmembers⟩ := hevaluated.value _ _ _ (Env.evaluates_callee hu hk hl hg) hst
    obtain ⟨hret, hsame⟩ := hresult (by rw [hmembers]; exact Env.findSome?_callable hl hg)
    have hmembers' := h hret
    exact (hsame (by rwa [hmembers'])).trans hmembers'

end Reading

/-! ## Queries -/

/-- In a program that is built, globals are bound only to what may stand for one. -/
theorem Program.Built.unlinked {p : Program} (hp : p.Built) (options : Options) : (Env.of p options).Unlinked :=
  fun _ _ hk hl => hp.bound.global?_eq_none hk hl

/-- The slots that stand for the result of a function at an index: its own, and what is selected there from a call. -/
inductive Arena.IsResult (a : Arena) (f : DeclId) (i : Nat) : SlotKey → Prop
  | result : IsResult a f i (.ret f i)
  | selected {c sel : DeclId} : a.called? c = some f → a.kind? sel = some (.select c i) → IsResult a f i (.decl sel)

namespace Reading

variable {env : Env} {R : Reading env} {N : DeclId → List TypeNode → Prop} {vs : List (List TypeNode)} {f : DeclId} {i : Nat}
  {key : SlotKey}

theorem has_of_isResult (hu : env.Unlinked)
    (hN : ∀ e ms, env.arena.isLiteral e = true → N e ms → R.Has (.decl e) ms ∧ R.Fits ms)
    (h : env.arena.IsResult f i key) (hf : env.arena.Yields N (.results f) vs) : R.Has key (valueAt vs i) := by
  cases h with
  | result => exact produces_of_yields hu hN hf i
  | selected hc hk => exact has_select hu hN hc hf hk

end Reading

namespace Session

variable {env : Env} {p : Program} {options : Options} {F : Set DeclId} {e f : DeclId} {qs : List Query} {answers : List Answer}
  {s t : Session} {ms : List TypeNode}

/-- Between queries, a declaration has no template: a slot that is not finished is not there. -/
theorem not_template_of_settles (hs : s.Settles env.Follows) (hidle : s.Idle) (h0 : s.stats.cycleHits = 0) :
    ∀ n ∈ s.cache.members (s.cache.node? (.decl e)), Env.isTemplate s n = false := by
  intro n hn
  cases hslot : s.cache.slot? (.decl e) with
  | none =>
    rw [NodeCache.node?, hslot] at hn
    cases hn
  | some slot => exact ((hs.value h0 _ (hidle.resolved hslot)).binds n hn).not_template

/-- Let functions without annotations each have one `return` statement, which gives literals, calls of locals that keep such
functions, and these in parentheses, and let the calls form no cycle. Then every function has a list of values in terms of what
its literals are. Whatever was asked before, its result at an index, and what is selected at that index from a call of it, is
exactly the value at that index (there is none at zero and past the end), if a literal is what it evaluates to; this is what a query
for it finds, and for a literal without overloads it is the literal itself. In a session that meets no slot under way, whatever is asked
before or afterwards, it is the value at that index too, for any literals, if a literal is what its node is. -/
theorem compileReturn_yields (hp : p.Built) (hF : p.arena.Adjusting F)
    (hacyclic : ∀ f ∈ F, ¬ Relation.TransGen p.arena.CallsNext f f) (hqs : ∀ q ∈ qs, q.merges = false)
    (h : fresh.askAll (.of p options) qs = .ok (answers, s)) (hf : f ∈ F) :
    (∀ N : DeclId → List TypeNode → Prop, (∀ e, p.arena.isLiteral e = true → ∃ ms, N e ms) →
      ∃ vs, p.arena.Yields N (.results f) vs) ∧
    (∀ e, p.arena.isLiteral e = true → (∀ doc ∈ p.arena.docs e, ∀ sig, p.arena.kind? doc ≠ some (.docOverload sig)) →
      ∃ n, (Env.of p options).Evaluates n (.decl e) [.leaf e]) ∧
    (∀ e n ms, (Env.of p options).Evaluates n (.decl e) ms →
      ∃ node s', s.compileDecl (.of p options) e = .ok (node, s') ∧ s'.cache.members node = ms) ∧
    ∀ i key, p.arena.IsResult f i key →
      (∀ vs, p.arena.Yields (fun e ms => ∃ n, (Env.of p options).Evaluates n (.decl e) ms) (.results f) vs →
        ∃ node s', s.compile (.of p options) key = .ok (node, s') ∧ s'.cache.members node = valueAt vs i) ∧
      ∀ node s', s.compile (.of p options) key = .ok (node, s') →
        ∀ qs' answers' t, (∀ q ∈ qs', q.isInquiry = true) → s'.askAll (.of p options) qs' = .ok (answers', t) →
          t.stats.cycleHits = 0 →
          ∀ vs, p.arena.Yields (fun e ms => t.cache.members (t.cache.node? (.decl e)) = ms) (.results f) vs →
            t.cache.members node = valueAt vs i := by
  have hu := hp.unlinked options
  obtain ⟨hs, hidle⟩ := askAll_evaluated hqs ⟨evaluated_fresh, idle_fresh⟩ h
  refine ⟨fun N hN => Arena.exists_yields hF hacyclic hN f hf, fun e he hbare => ⟨1, Env.evaluates_literal hu he hbare⟩,
    fun e n ms he => compile_evaluates rfl hs hidle he, fun i key hkey => ⟨fun vs hvs => ?_, ?_⟩⟩
  · obtain ⟨n, he⟩ : ∃ n, (Env.of p options).Evaluates n key (valueAt vs i) :=
      Reading.has_of_isResult (R := .evaluating _ hu) hu (fun e ms _ ⟨n, he⟩ => ⟨⟨n, he⟩, he.plain⟩) hkey hvs
    exact compile_evaluates rfl hs hidle he
  · intro node s' hr qs' answers' t hqs' ht h0 vs hvs
    have hc := Env.compileSlot_following (.of p options)
    have hgeneric : ∀ j, key ≠ .generic j := by cases hkey <;> simp
    have hvis := compile_visits hidle.wellFormed hr
    have hs' := (Env.compileSlot_evaluating (.of p options) _ _ _ _ _ hs (awaits_of_idle hidle key) hr).1
    have hidle' := (Env.compile_evolves (Env.compileSlot_visits _ _) hr).idle hidle
    have hsettles := (hc _ _ _ _ _ (askAll_settles_values hc hqs (.of_empty _ rfl) h) (fun j hj => absurd hj (hgeneric j)) hr).1
    have hmerges : ∀ q ∈ qs', q.merges = false := fun q hq => Query.merges_of_isInquiry (hqs' q hq)
    obtain ⟨hevaluated, hidlet⟩ := askAll_evaluated hmerges ⟨hs', hidle'⟩ ht
    have hfollows : t.Settles (Env.of p options).Follows := askAll_settles_values hc hmerges hsettles ht
    obtain ⟨st, hslot⟩ := hvis.slot
    have hslot' := ((askAll_evolves hqs' ht).settled hvis.wellFormed).slot key _ hslot
    have hvalue : t.cache.state? key = some .resolved → t.cache.members (t.cache.node? key) = valueAt vs i :=
      Reading.has_of_isResult (R := .finished hu hevaluated hfollows h0) hu
        (fun e ms _ he => ⟨fun _ => he, he ▸ not_template_of_settles hfollows hidlet h0⟩) hkey hvs
    rw [← hvalue (hidlet.resolved hslot'), NodeCache.node?_of_slot? hslot']

end Session

/-- `local g = function() return function() end, "a" end` where `---@overload fun()` is above the inner function,
`local h = function() return 2, g() end` and `local f = function() return (h()), h() end`, and the third value of `f()`. -/
def Program.sampleSpread : Program :=
  (empty.build [.function [], .function [], .string "a", .ret ⟨0⟩ [⟨1⟩, ⟨2⟩], .localVar "g" (some ⟨0⟩), .function [], .integer 2,
    .getLocal ⟨4⟩, .call ⟨7⟩ [], .ret ⟨5⟩ [⟨6⟩, ⟨8⟩], .localVar "h" (some ⟨5⟩), .function [], .getLocal ⟨10⟩, .call ⟨12⟩ [],
    .paren ⟨13⟩, .getLocal ⟨10⟩, .call ⟨15⟩ [], .ret ⟨11⟩ [⟨14⟩, ⟨16⟩], .localVar "f" (some ⟨11⟩), .getLocal ⟨18⟩, .call ⟨19⟩ [],
    .select ⟨20⟩ 3, .tyFunction [] [], .docOverload ⟨1⟩ ⟨22⟩]).2

namespace Program

theorem returned_sampleSpread : sampleSpread.arena.returned? ⟨0⟩ = some [⟨1⟩, ⟨2⟩] ∧
    sampleSpread.arena.returned? ⟨5⟩ = some [⟨6⟩, ⟨8⟩] ∧ sampleSpread.arena.returned? ⟨11⟩ = some [⟨14⟩, ⟨16⟩] := by
  decide +kernel

theorem called_sampleSpread : sampleSpread.arena.called? ⟨8⟩ = some ⟨0⟩ ∧ sampleSpread.arena.called? ⟨13⟩ = some ⟨5⟩ ∧
    sampleSpread.arena.called? ⟨16⟩ = some ⟨5⟩ ∧ sampleSpread.arena.kind? ⟨14⟩ = some (.paren ⟨13⟩) := by
  decide +kernel

theorem isLiteral_sampleSpread : ∀ e ∈ [⟨1⟩, ⟨2⟩, ⟨6⟩], sampleSpread.arena.isLiteral e = true := by decide +kernel

theorem adjusting_sampleSpread : sampleSpread.arena.Adjusting {⟨0⟩, ⟨5⟩, ⟨11⟩} := by
  obtain ⟨hg, hh, hf⟩ := returned_sampleSpread
  obtain ⟨hcall8, hcall13, hcall16, hparen⟩ := called_sampleSpread
  rintro _ (rfl | rfl | rfl)
  · refine ⟨_, hg, List.forall_mem_cons.2 ⟨.literal (isLiteral_sampleSpread _ (by simp)), ?_⟩⟩
    exact List.forall_mem_singleton.2 (.literal (isLiteral_sampleSpread _ (by simp)))
  · refine ⟨_, hh, List.forall_mem_cons.2 ⟨.literal (isLiteral_sampleSpread _ (by simp)), ?_⟩⟩
    exact List.forall_mem_singleton.2 (.call hcall8 (by simp))
  · refine ⟨_, hf, List.forall_mem_cons.2 ⟨.paren hparen (.call hcall13 (by simp)), ?_⟩⟩
    exact List.forall_mem_singleton.2 (.call hcall16 (by simp))

theorem yields_sampleSpread {N : DeclId → List TypeNode → Prop} {v v' w : List TypeNode} (h1 : N ⟨1⟩ v) (h2 : N ⟨2⟩ v')
    (h6 : N ⟨6⟩ w) : sampleSpread.arena.Yields N (.results ⟨11⟩) [w, w, v, v'] := by
  obtain ⟨hg, hh, hf⟩ := returned_sampleSpread
  obtain ⟨hcall8, hcall13, hcall16, hparen⟩ := called_sampleSpread
  have hliteral := isLiteral_sampleSpread
  have hgs : sampleSpread.arena.Yields N (.results ⟨0⟩) [v, v'] :=
    .results hg (.cons (.literal (hliteral _ (by simp)) h1)
      (.last (.single (Arena.not_call_of_isLiteral (hliteral _ (by simp))) (.literal (hliteral _ (by simp)) h2))))
  have hhs : sampleSpread.arena.Yields N (.results ⟨5⟩) [w, v, v'] :=
    .results hh (.cons (.literal (hliteral _ (by simp)) h6) (.last (.spread hcall8 hgs)))
  exact .results hf (.cons (.paren hparen (.head hcall13 hhs)) (.last (.spread hcall16 hhs)))

end Program

/-- The function with an overload is itself and the overload. -/
theorem Env.evaluates_sampleSpread : (Env.of .sampleSpread {}).Evaluates 3 (.decl ⟨1⟩) [.leaf ⟨1⟩, .leaf ⟨22⟩] := by
  have hrule : (Env.of .sampleSpread {}).rule (.decl ⟨1⟩) = [.own (.leaf ⟨1⟩), .merge ⟨23⟩] := by decide +kernel
  have hdoc : (Env.of .sampleSpread {}).rule (.decl ⟨23⟩) = [.merge ⟨22⟩] := by decide +kernel
  have hsig : (Env.of .sampleSpread {}).rule (.decl ⟨22⟩) = [.own (.leaf ⟨22⟩)] := by decide +kernel
  have hevalsig : (Env.of .sampleSpread {}).Evaluates 1 (.decl ⟨22⟩) [.leaf ⟨22⟩] :=
    ⟨by simp, hsig ▸ .singleton (.own rfl) (by simp)⟩
  have hevaldoc : (Env.of .sampleSpread {}).Evaluates 2 (.decl ⟨23⟩) [.leaf ⟨22⟩] :=
    ⟨by simp, hdoc ▸ .singleton (.merge hevalsig) (by simp)⟩
  refine ⟨by simp, ?_⟩
  rw [hrule]
  exact ⟨[[.leaf ⟨1⟩], [.leaf ⟨22⟩]], .cons (.own rfl) (.cons (.merge hevaldoc) .nil), by decide⟩

namespace Session

/-- The call in parentheses is cut to one value, and the third value of `f()` is the first one of `g()`, with its overload. -/
theorem compileReturn_yields_spread : ∃ answers s node s' answers' t,
    fresh.askAll (.of .sampleSpread {}) [.decl ⟨20⟩, .result ⟨0⟩ 2] = .ok (answers, s) ∧
    s.compile (.of .sampleSpread {}) (.decl ⟨21⟩) = .ok (node, s') ∧ s'.cache.members node = [.leaf ⟨1⟩, .leaf ⟨22⟩] ∧
    s'.askAll (.of .sampleSpread {}) [.decl ⟨1⟩] = .ok (answers', t) ∧
    t.cache.members node = t.cache.members (t.cache.node? (.decl ⟨1⟩)) := by
  have hbuilt : Program.sampleSpread.Built := ⟨_, .inl rfl⟩
  have hacyclic := Arena.not_transGen_callsNext (a := Program.sampleSpread.arena) (by decide +kernel) (by decide +kernel)
  obtain ⟨⟨answers', t⟩, hrun, h0⟩ := Except.exists_ok (x := do
    let r ← fresh.askAll (.of .sampleSpread {}) [.decl ⟨20⟩, .result ⟨0⟩ 2]
    let r ← r.2.compile (.of .sampleSpread {}) (.decl ⟨21⟩)
    r.2.askAll (.of .sampleSpread {}) [.decl ⟨1⟩]) (f := fun r => r.2.stats.cycleHits) (b := 0) (by decide +kernel)
  obtain ⟨⟨answers, s⟩, hask, hrun⟩ := Except.bind_ok hrun
  obtain ⟨⟨node, s'⟩, hr, ht⟩ := Except.bind_ok hrun
  obtain ⟨-, hbare, -, hvalues⟩ := compileReturn_yields hbuilt Program.adjusting_sampleSpread (fun f _ => hacyclic f) (by decide)
    hask (f := ⟨11⟩) (by simp)
  obtain ⟨heval, hafter⟩ := hvalues 3 (.decl ⟨21⟩) (.selected (c := ⟨20⟩) (by decide +kernel) (by decide +kernel))
  have hliteral : ∀ e ∈ [⟨2⟩, ⟨6⟩], ∃ n, (Env.of .sampleSpread {}).Evaluates n (.decl e) [.leaf e] := by
    intro e he
    have hdocs : ∀ e ∈ [⟨2⟩, ⟨6⟩], Program.sampleSpread.arena.docs e = [] := by decide +kernel
    exact hbare e (Program.isLiteral_sampleSpread e (List.mem_cons_of_mem _ he)) (by simp [hdocs e he])
  obtain ⟨node', s'', hr', hmembers⟩ := heval _ (Program.yields_sampleSpread ⟨3, Env.evaluates_sampleSpread⟩
    (hliteral _ (by simp)) (hliteral _ (by simp)))
  rw [hr] at hr'
  cases hr'
  exact ⟨answers, s, node, s', answers', t, hask, hr, hmembers, ht,
    hafter node s' hr _ _ t (by decide) ht h0 _ (Program.yields_sampleSpread rfl rfl rfl)⟩

end Session

/-- `local lf = function() return function() end end` and `local l = lf()`, where `---@overload` above the inner function says what
`l` is. -/
def Program.sampleOverloadCycle : Program :=
  (empty.build [.function [], .function [], .ret ⟨1⟩ [⟨0⟩], .localVar "lf" (some ⟨1⟩), .getLocal ⟨3⟩, .call ⟨4⟩ [],
    .localVar "l" (some ⟨5⟩), .getLocal ⟨6⟩, .docOverload ⟨0⟩ ⟨7⟩]).2

namespace Session

/-- The inner function was asked for first, so what `lf` returns was taken when the inner function was itself, and not yet
its overload. -/
theorem compileReturn_before_overload : ∃ answers s node s' vs,
    Program.sampleOverloadCycle.Built ∧ Program.sampleOverloadCycle.arena.Adjusting {⟨1⟩} ∧
    (∀ f, ¬ Relation.TransGen Program.sampleOverloadCycle.arena.CallsNext f f) ∧
    fresh.askAll (.of .sampleOverloadCycle {}) [.decl ⟨0⟩] = .ok (answers, s) ∧
    s.compileReturn (.of .sampleOverloadCycle {}) ⟨1⟩ 1 = .ok (node, s') ∧
    Program.sampleOverloadCycle.arena.Yields (fun e ms => s'.cache.members (s'.cache.node? (.decl e)) = ms) (.results ⟨1⟩) vs ∧
    valueAt vs 1 = [.leaf ⟨0⟩, .leaf ⟨6⟩] ∧ s'.cache.members node = [.leaf ⟨0⟩] := by
  have hret : Program.sampleOverloadCycle.arena.returned? ⟨1⟩ = some [⟨0⟩] := by decide +kernel
  have hliteral : Program.sampleOverloadCycle.arena.isLiteral ⟨0⟩ = true := by decide +kernel
  have hadjusting : Program.sampleOverloadCycle.arena.Adjusting {⟨1⟩} := by
    rintro _ rfl
    exact ⟨_, hret, List.forall_mem_singleton.2 (.literal hliteral)⟩
  obtain ⟨⟨node, s'⟩, hrun, hmembers⟩ := Except.exists_ok (x := do
    let r ← fresh.askAll (.of .sampleOverloadCycle {}) [.decl ⟨0⟩]
    r.2.compileReturn (.of .sampleOverloadCycle {}) ⟨1⟩ 1)
    (f := fun r => (r.2.cache.members r.1, r.2.cache.members (r.2.cache.node? (.decl ⟨0⟩))))
    (b := ([.leaf ⟨0⟩], [.leaf ⟨0⟩, .leaf ⟨6⟩])) (by decide +kernel)
  obtain ⟨⟨answers, s⟩, hask, hr⟩ := Except.bind_ok hrun
  obtain ⟨hnode, hown⟩ := Prod.mk.inj hmembers
  exact ⟨answers, s, node, s', [[.leaf ⟨0⟩, .leaf ⟨6⟩]], ⟨_, .inl rfl⟩, hadjusting,
    Arena.not_transGen_callsNext (by decide +kernel) (by decide +kernel), hask, hr,
    .results hret (.last (.single (Arena.not_call_of_isLiteral hliteral) (.literal hliteral hown))), rfl, hnode⟩

end Session

end LuaInfer
