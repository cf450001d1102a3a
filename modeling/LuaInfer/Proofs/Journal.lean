import LuaInfer.Proofs.Carry
import LuaInfer.Proofs.Final
/-!
# The journal accounts for every look-up

Every look-up notes its start and its end, and what happens in between notes its own. So the events of a query are
well bracketed, and the counters can be read off them. `Event.Recorded` is what the events of any piece of work look like;
two pieces of work one after the other, and a look-up around a piece of work, look like that again. `Session.Books` ties the
events of a piece of work to the counters and to the slots that it adds: one for each look-up that ran a rule.

`Env.compileSlot_books` says it of every resolution, by induction on the fuel, and `Session.tracked_accounts` of every session
that inquiries and clearings reach.
-/

namespace LuaInfer

/-! ## Events -/

namespace Event

/-- The look-ups that start, with their slots. -/
def opened (es : List Event) : List (Nat × SlotKey) :=
  es.filterMap fun
    | .started query key _ => some (query, key)
    | .ended .. => none

/-- The look-ups that end, with their slots. -/
def closed (es : List Event) : List (Nat × SlotKey) :=
  es.filterMap fun
    | .started .. => none
    | .ended query key _ _ => some (query, key)

/-- The end of a look-up that ran a rule. -/
def isRun : Event → Bool
  | .ended _ _ _ false => true
  | _ => false

/-- The end of a look-up that was answered from a slot. -/
def isHit : Event → Bool
  | .ended _ _ _ true => true
  | _ => false

/-- The end of a look-up that ran the rule of this slot. -/
def isRunOf (key : SlotKey) : Event → Bool
  | .ended _ k _ false => k == key
  | _ => false

/-- Reads events with the look-ups under way on a stack, the last one first, and gives the stack that is left. There is
none if a look-up ends that is not the last one under way. -/
def settle : List (Nat × SlotKey) → List Event → Option (List (Nat × SlotKey))
  | stack, [] => some stack
  | stack, .started query key _ :: es => settle ((query, key) :: stack) es
  | top :: stack, .ended query key _ _ :: es => if top = (query, key) then settle stack es else none
  | [], .ended .. :: _ => none

/-- An end that was answered from a slot comes right after its start. -/
def Prompt (es : List Event) : Prop :=
  ∀ before query key members after, es = before ++ .ended query key members true :: after →
    ∃ earlier kind, before = earlier ++ [.started query key kind]

variable {es es' : List Event} {key : SlotKey} {kind : String} {n query members : Nat} {stack : List (Nat × SlotKey)}

@[simp] theorem opened_append (es es' : List Event) : opened (es ++ es') = opened es ++ opened es' :=
  List.filterMap_append

theorem settle_append (stack : List (Nat × SlotKey)) (es es' : List Event) :
    settle stack (es ++ es') = (settle stack es).bind fun rest => settle rest es' := by
  fun_induction settle stack es with
  | case1 stack => simp
  | case2 stack query key kind es ih => simpa [settle] using ih
  | case3 stack query key members hit es ih => simpa [settle] using ih
  | case4 top stack query key members hit es hne => simp [settle, hne]
  | case5 query key members hit es => simp [settle]

/-- What starts, together with what was under way, is what ends, together with what is left. -/
theorem closed_perm_of_settle {rest : List (Nat × SlotKey)} (h : settle stack es = some rest) :
    (closed es ++ rest).Perm (opened es ++ stack) := by
  fun_induction settle stack es with
  | case1 stack => cases h; exact .refl _
  | case2 stack query key kind es ih => exact (ih h).trans List.perm_middle
  | case3 stack query key members hit es ih =>
    exact (List.Perm.cons (query, key) (ih h)).trans List.perm_middle.symm
  | case4 => cases h
  | case5 => cases h

/-- What the events of a piece of work look like if `n` look-ups started before: whatever was under way is under way
afterwards, look-ups are numbered as they start, and answers from a slot come at once. -/
structure Recorded (n : Nat) (es : List Event) : Prop where
  balanced : ∀ stack, settle stack es = some stack
  numbered : (opened es).map Prod.fst = List.range' (n + 1) (opened es).length
  prompt : Prompt es

theorem Recorded.nil (n : Nat) : Recorded n [] :=
  ⟨fun _ => rfl, rfl, fun before _ _ _ _ h => by simp at h⟩

theorem Recorded.append (h : Recorded n es) (h' : Recorded (n + (opened es).length) es') : Recorded n (es ++ es') := by
  refine ⟨fun stack => ?_, ?_, fun before query key members after heq => ?_⟩
  · rw [settle_append, h.balanced, Option.bind_some, h'.balanced]
  · rw [opened_append, List.map_append, List.length_append, h.numbered, h'.numbered, Nat.add_right_comm,
      List.range'_append_1]
  · -- the end stands in the first part, or in the second
    rcases List.append_eq_append_iff.1 heq with ⟨more, rfl, heq'⟩ | ⟨more, rfl, heq'⟩
    · obtain ⟨earlier, kind, rfl⟩ := h'.prompt more query key members after heq'
      exact ⟨es ++ earlier, kind, by simp⟩
    · cases more with
      | nil =>
        obtain ⟨earlier, kind, hnil⟩ := h'.prompt [] query key members after heq'.symm
        simp at hnil
      | cons e more =>
        cases heq'
        exact h.prompt before query key members more rfl

/-- A look-up that is answered from a slot. -/
theorem Recorded.hit (n : Nat) (key : SlotKey) (kind : String) (members : Nat) :
    Recorded n [.started (n + 1) key kind, .ended (n + 1) key members true] := by
  refine ⟨fun stack => by simp [settle], rfl, fun before query key' members' after heq => ?_⟩
  match before, heq with
  | [_], heq =>
    cases heq
    exact ⟨[], kind, rfl⟩
  | _ :: _ :: before, heq => simp at heq

/-- A look-up around a piece of work. -/
theorem Recorded.wrap (h : Recorded (n + 1) es) (key : SlotKey) (kind : String) (members : Nat) :
    Recorded n (.started (n + 1) key kind :: es ++ [.ended (n + 1) key members false]) := by
  refine ⟨fun stack => ?_, ?_, fun before query key' members' after heq => ?_⟩
  · rw [List.cons_append, settle, settle_append, h.balanced]
    simp [settle]
  · have hopened : opened (.started (n + 1) key kind :: es ++ [.ended (n + 1) key members false]) =
        (n + 1, key) :: opened es := by simp [opened]
    rw [hopened, List.map_cons, h.numbered, List.length_cons, List.range'_succ]
  · cases before with
    | nil => simp at heq
    | cons e before =>
      rw [List.cons_append, List.cons_append, List.cons.injEq] at heq
      obtain ⟨rfl, heq⟩ := heq
      rcases List.append_eq_append_iff.1 heq with ⟨more, rfl, heq'⟩ | ⟨more, rfl, heq'⟩
      · -- behind the work there is only the end of the look-up around it, which ran a rule
        cases more with
        | nil => simp at heq'
        | cons e more => simp at heq'
      · cases more with
        | nil => simp at heq'
        | cons e more =>
          cases heq'
          obtain ⟨earlier, kind', rfl⟩ := h.prompt before query key' members' more rfl
          exact ⟨.started (n + 1) key kind :: earlier, kind', rfl⟩

end Event

/-! ## Slots -/

namespace NodeCache

variable {c : NodeCache} {key k : SlotKey}

/-- One if the slot is there. -/
def occupied (c : NodeCache) (key : SlotKey) : Nat := if (c.slot? key).isSome then 1 else 0

theorem occupied_empty (key : SlotKey) : empty.occupied key = 0 := by
  have hnone : empty.slot? key = none := Session.slot?_fresh
  rw [occupied, hnone]
  rfl

theorem size_insert (key : SlotKey) (slots : Std.TreeMap SlotKey Slot) (unions unions' : UnionArena) (slot : Slot) :
    size ⟨slots.insert key slot, unions⟩ + occupied ⟨slots, unions'⟩ key = size ⟨slots, unions'⟩ + 1 := by
  have hmem : key ∈ slots ↔ (slot? ⟨slots, unions'⟩ key).isSome = true := Std.TreeMap.mem_iff_isSome_getElem?
  simp only [size, occupied, Std.TreeMap.size_insert, ← hmem, Std.TreeMap.mem_iff_contains]
  split <;> rfl

theorem occupied_insert (slots : Std.TreeMap SlotKey Slot) (unions unions' : UnionArena) (slot : Slot) :
    occupied ⟨slots.insert key slot, unions⟩ k = if k = key then 1 else occupied ⟨slots, unions'⟩ k := by
  unfold occupied
  rw [slot?_insert]
  split
  · rfl
  · rfl

/-- Merging into a slot that is there adds no slot. -/
theorem occupied_setNode (h : c.occupied key = 1) (node : Option TypeNode) :
    (c.setNode key node).size = c.size ∧ ∀ k, (c.setNode key node).occupied k = c.occupied k := by
  have hstore : ∀ (unions : UnionArena) n, ({ c with unions }.store key n).size = c.size ∧
      ∀ k, ({ c with unions }.store key n).occupied k = c.occupied k := by
    intro unions n
    refine ⟨?_, fun k => ?_⟩
    · have hsize : ({ c with unions }.store key n).size + c.occupied key = c.size + 1 :=
        size_insert key c.slots unions c.unions _
      rw [h] at hsize
      exact Nat.add_right_cancel hsize
    · refine (occupied_insert c.slots unions c.unions _).trans ?_
      split
      · next hk => rw [hk, h]
      · rfl
  cases node with
  | none => exact ⟨rfl, fun _ => rfl⟩
  | some n =>
    rcases c.setNode_cases key n with ⟨-, hs⟩ | ⟨node, -, -, hs⟩ | ⟨u, -, -, hs⟩ | ⟨node, -, -, hs⟩ <;> rw [hs]
    · exact hstore c.unions n
    · exact ⟨rfl, fun _ => rfl⟩
    · exact ⟨rfl, fun _ => rfl⟩
    · rw [storeUnion_eq]
      exact hstore _ _

end NodeCache

/-! ## Books -/

namespace Session

open Event

variable {env : Env} {s s' s'' : Session} {es es' recent : List Event} {key : SlotKey}

/-- From `s` to `s'` the events `es` were noted, and the counters and the slots moved with them. -/
structure Books (s s' : Session) (es : List Event) : Prop where
  journal : s'.journal.toList = s.journal.toList ++ es
  recorded : Recorded s.lookups es
  lookups : s'.lookups = s.lookups + (opened es).length
  runs : s'.stats.ruleRuns = s.stats.ruleRuns + es.countP isRun
  hits : s'.stats.cacheHits + s'.stats.cycleHits = s.stats.cacheHits + s.stats.cycleHits + es.countP isHit
  size : s'.cache.size = s.cache.size + es.countP isRun
  slots : ∀ key, s'.cache.occupied key = s.cache.occupied key + es.countP (isRunOf key)

namespace Books

theorem refl (s : Session) : Books s s [] :=
  ⟨by simp, .nil _, rfl, rfl, rfl, rfl, fun _ => rfl⟩

theorem trans (h : Books s s' es) (h' : Books s' s'' es') : Books s s'' (es ++ es') where
  journal := by rw [h'.journal, h.journal, List.append_assoc]
  recorded := h.recorded.append (h.lookups ▸ h'.recorded)
  lookups := by rw [h'.lookups, h.lookups, opened_append, List.length_append, Nat.add_assoc]
  runs := by rw [h'.runs, h.runs, List.countP_append, Nat.add_assoc]
  hits := by rw [h'.hits, h.hits, List.countP_append, Nat.add_assoc]
  size := by rw [h'.size, h.size, List.countP_append, Nat.add_assoc]
  slots key := by rw [h'.slots, h.slots, List.countP_append, Nat.add_assoc]

theorem hit (s : Session) (key : SlotKey) (kind : String) (state : SlotState) : ∃ es, Books s (s.hit key kind state) es := by
  refine ⟨[.started (s.lookups + 1) key kind,
    .ended (s.lookups + 1) key (s.cache.members (s.cache.node? key)).length true], ?_, .hit _ _ _ _, ?_, ?_, ?_, ?_, ?_⟩
  · cases state <;> simp [Session.hit, noteStart, noteEnd]
  · cases state <;> rfl
  · cases state <;> rfl
  · cases state with
    | resolved => exact Nat.add_right_comm ..
    | inProgress => exact (Nat.add_assoc ..).symm
  · cases state <;> rfl
  · intro k
    cases state <;> rfl

theorem setNode (h : Books s s' es) (hkey : s.cache.occupied key = 1) (node : Option TypeNode) :
    Books s (s'.setNode key node) es := by
  have hle : s'.cache.occupied key ≤ 1 := by
    unfold NodeCache.occupied
    split <;> omega
  have hthere : s'.cache.occupied key = 1 := by
    have := h.slots key
    omega
  obtain ⟨hsize, hslots⟩ := NodeCache.occupied_setNode hthere node
  exact ⟨h.journal, h.recorded, h.lookups, h.runs, h.hits, hsize.trans h.size, fun k => (hslots k).trans (h.slots k)⟩

/-- The rule of a new slot, from start to finish. -/
theorem of_rule {kind : String} (habs : s.cache.slot? key = none) (h : Books (s.start key kind) s' es) :
    ∃ es', Books s (s'.finish (s.start key kind).lookups key) es' := by
  have hnone : s.cache.occupied key = 0 := by rw [NodeCache.occupied, habs]; rfl
  have hstart : ∀ k, (s.start key kind).cache.occupied k = if k = key then 1 else s.cache.occupied k :=
    fun k => NodeCache.occupied_insert s.cache.slots _ _ _
  have hsize : (s.start key kind).cache.size = s.cache.size + 1 := by
    have := NodeCache.size_insert key s.cache.slots s.cache.unions s.cache.unions ⟨.inProgress, none⟩
    change (s.start key kind).cache.size + s.cache.occupied key = s.cache.size + 1 at this
    omega
  have hle : s'.cache.occupied key ≤ 1 := by
    unfold NodeCache.occupied
    split <;> omega
  -- the slot is there from the start, so no look-up on the way ran its rule again
  have hkey := h.slots key
  rw [hstart, if_pos rfl] at hkey
  refine ⟨.started (s.lookups + 1) key kind :: es ++ [.ended (s.lookups + 1) key
    ((s'.cache.finish key).members ((s'.cache.finish key).node? key)).length false],
    ?_, h.recorded.wrap _ _ _, ?_, ?_, ?_, ?_, fun k => ?_⟩
  · simp only [Session.finish, noteEnd, Array.toList_push, h.journal, Session.start, noteStart, List.append_assoc,
      List.cons_append, List.nil_append]
  · change s'.lookups = _
    rw [h.lookups]
    simp only [Session.start, noteStart, opened, List.filterMap_cons, List.cons_append, List.filterMap_append,
      List.filterMap_nil, List.append_nil, List.length_cons]
    omega
  · change s'.stats.ruleRuns = _
    rw [h.runs]
    simp only [Session.start, noteStart, List.cons_append, List.countP_cons, List.countP_append, isRun, List.countP_nil]
    simp
    omega
  · change s'.stats.cacheHits + s'.stats.cycleHits = _
    rw [h.hits]
    simp [Session.start, noteStart, List.countP_append, isHit]
  · have hfin := NodeCache.size_insert key s'.cache.slots s'.cache.unions s'.cache.unions
      ⟨.resolved, s'.cache.node? key⟩
    change (s'.cache.finish key).size + s'.cache.occupied key = s'.cache.size + 1 at hfin
    change (s'.cache.finish key).size = _
    rw [h.size, hsize] at hfin
    simp only [List.cons_append, List.countP_cons, List.countP_append, isRun, List.countP_nil]
    simp
    omega
  · have hfin : (s'.cache.finish key).occupied k = if k = key then 1 else s'.cache.occupied k :=
      NodeCache.occupied_insert s'.cache.slots _ _ _
    change (s'.cache.finish key).occupied k = _
    rw [hfin, h.slots k, hstart k]
    simp only [List.cons_append, List.countP_cons, List.countP_append, isRunOf, List.countP_nil]
    by_cases hk : k = key
    · subst hk
      simp
      omega
    · simp [hk, Ne.symm hk]

end Books

/-- The relation that a rule carries: one session, whose events since `s` are in order. -/
def Since (s t t' : Session) : Prop := t' = t ∧ ∃ es, Books s t es

theorem Since.frame (hkey : s.cache.occupied key = 1) : Frame s.Since key where
  cache := by rintro t _ ⟨rfl, -⟩; rfl
  substitutions := by rintro t _ ⟨rfl, -⟩; rfl
  depth := by rintro t _ ⟨rfl, -⟩; rfl
  setNode := by rintro t _ node ⟨rfl, es, h⟩; exact ⟨rfl, es, h.setNode hkey node⟩
  setSubstitutions := by
    rintro t _ subs ⟨rfl, es, h⟩
    exact ⟨rfl, es, h.journal, h.recorded, h.lookups, h.runs, h.hits, h.size, h.slots⟩
  setDepth := by
    rintro t _ depth ⟨rfl, es, h⟩
    exact ⟨rfl, es, h.journal, h.recorded, h.lookups, h.runs, h.hits, h.size, h.slots⟩

end Session

namespace Env

variable {env : Env} {s s' : Session} {key : SlotKey}

open Session

theorem compileSlot_books (env : Env) (fuel : Nat) (key : SlotKey) {node : Option TypeNode}
    (h : (env.compileSlot fuel key).run s = .ok (node, s')) : ∃ es, Books s s' es := by
  induction fuel generalizing key s s' node with
  | zero => cases h
  | succ fuel ih =>
    rcases compileSlot_ok h with ⟨slot, -, -, rfl⟩ | ⟨t, query, habs, hr, -, -⟩
    · exact Books.hit s key _ _
    · have hkey : (s.start key (env.slotKind key)).cache.occupied key = 1 := by
        rw [NodeCache.occupied, Session.slot?_start, if_pos rfl]
        rfl
      have hcarry : ∀ k, Resolve.Carries (s.start key (env.slotKind key)).Since (env.compileSlot fuel k)
          (env.compileSlot fuel k) := by
        rintro k _ t ⟨rfl, es, hb⟩
        cases hrun : (env.compileSlot fuel k).run t with
        | error e => exact .failed
        | ok r =>
          obtain ⟨es', hb'⟩ := ih k hrun
          exact .returned ⟨rfl, es ++ es', hb.trans hb'⟩
      have hrule : Resolve.Carries (s.start key (env.slotKind key)).Since (env.runRule (env.compileSlot fuel) fuel key)
          (env.runRule (env.compileSlot fuel) fuel key) := runRule_carries (Since.frame hkey) hcarry fuel
      have hagree := hrule _ _ ⟨rfl, [], .refl _⟩
      rw [hr] at hagree
      obtain ⟨-, es, hb⟩ : (s.start key (env.slotKind key)).Since t t := by
        cases hagree with
        | returned hb => exact hb
      rw [compileSlot_of_rule habs hr] at h
      cases h
      exact hb.of_rule habs

end Env

namespace Session

open Event

variable {env : Env} {s s' : Session} {q : Query} {a : Answer} {recent : List Event}

theorem ask_books (hq : q.isInquiry = true) (h : s.ask env q = .ok (a, s')) : ∃ es, Books s s' es := by
  refine ask_ok (fun t => ∃ es, Books s t es) (fun fuel key t node t' ⟨es, hb⟩ hr => ?_) hq ⟨[], .refl s⟩ h
  obtain ⟨es', hb'⟩ := env.compileSlot_books fuel key hr
  exact ⟨es ++ es', hb.trans hb'⟩

/-- The sessions that inquiries and clearings reach, each with the events since the last clearing, or since its creation. -/
inductive Tracked (env : Env) : Session → List Event → Prop
  | fresh : Tracked env .fresh []
  | ask {s s' : Session} {recent es : List Event} {q : Query} {a : Answer} : Tracked env s recent →
      q.isInquiry = true → s.ask env q = .ok (a, s') → s'.journal.toList = s.journal.toList ++ es →
      Tracked env s' (recent ++ es)
  | clear {s s' : Session} {recent : List Event} {a : Answer} : Tracked env s recent →
      s.ask env .clear = .ok (a, s') → Tracked env s' []

/-- Runs of rules, slots and events agree. -/
theorem Tracked.counts (h : Tracked env s recent) : s.stats.ruleRuns = s.cache.size ∧
    ∀ key, recent.countP (isRunOf key) = s.cache.occupied key := by
  induction h with
  | fresh => exact ⟨rfl, fun key => (NodeCache.occupied_empty key).symm⟩
  | @ask s s' recent es q a _ hq ha hj ih =>
    obtain ⟨es', hb⟩ := ask_books hq ha
    obtain rfl : es = es' := List.append_cancel_left (hj.symm.trans hb.journal)
    refine ⟨by rw [hb.runs, hb.size, ih.1], fun key => ?_⟩
    rw [List.countP_append, ih.2 key, hb.slots key]
  | clear _ ha _ =>
    cases ha
    exact ⟨rfl, fun key => (NodeCache.occupied_empty key).symm⟩

/-- In every session that inquiries and clearings reach, as many rules ran as there are slots, and since the last clearing
exactly one look-up ran the rule of each slot that is there. Clearing notes nothing. The events of an inquiry are well
bracketed: each start has one end, of the same look-up and slot; look-ups are numbered one after the other as they start; an
answer from a slot comes right after its start; and the counters grow by the ends of either sort. -/
theorem tracked_accounts (env : Env) {s : Session} {recent : List Event} (h : Tracked env s recent) :
    s.stats.ruleRuns = s.cache.size ∧
    (∀ key, recent.countP (isRunOf key) = if (s.cache.slot? key).isSome then 1 else 0) ∧
    (∀ a s', s.ask env .clear = .ok (a, s') → s'.journal = s.journal ∧ s'.lookups = s.lookups) ∧
    ∀ q a s', q.isInquiry = true → s.ask env q = .ok (a, s') → ∃ es, s'.journal.toList = s.journal.toList ++ es ∧
      settle [] es = some [] ∧ (closed es).Perm (opened es) ∧
      (opened es).map Prod.fst = List.range' (s.lookups + 1) (opened es).length ∧
      s'.lookups = s.lookups + (opened es).length ∧ Prompt es ∧
      s'.stats.ruleRuns = s.stats.ruleRuns + es.countP isRun ∧
      s'.stats.cacheHits + s'.stats.cycleHits = s.stats.cacheHits + s.stats.cycleHits + es.countP isHit := by
  obtain ⟨hruns, hslots⟩ := h.counts
  refine ⟨hruns, hslots, fun a s' ha => ?_, fun q a s' hq ha => ?_⟩
  · cases ha
    exact ⟨rfl, rfl⟩
  · obtain ⟨es, hb⟩ := ask_books hq ha
    have hperm := closed_perm_of_settle (hb.recorded.balanced [])
    rw [List.append_nil, List.append_nil] at hperm
    exact ⟨es, hb.journal, hb.recorded.balanced [], hperm, hb.recorded.numbered, hb.lookups, hb.recorded.prompt, hb.runs,
      hb.hits⟩

/-- Two locals that stand for each other: five rules run, and one look-up meets a slot that is there. -/
theorem tracked_accounts_loop : ∃ s recent, Tracked .sampleLoop s recent ∧
    (recent.countP isRun, recent.countP isHit) = (5, 1) ∧ s.stats.ruleRuns = s.cache.size ∧
    ∀ key, recent.countP (isRunOf key) = if (s.cache.slot? key).isSome then 1 else 0 := by
  obtain ⟨⟨a, s⟩, hask, hcounts⟩ := Except.exists_ok (x := fresh.ask .sampleLoop (.decl ⟨0⟩))
    (f := fun r => (r.2.journal.toList.countP isRun, r.2.journal.toList.countP isHit)) (b := (5, 1)) (by decide +kernel)
  have hs : Tracked .sampleLoop s ([] ++ s.journal.toList) := .ask (q := .decl ⟨0⟩) .fresh rfl hask rfl
  exact ⟨s, _, hs, hcounts, (tracked_accounts .sampleLoop hs).1, (tracked_accounts .sampleLoop hs).2.1⟩

end Session

end LuaInfer
