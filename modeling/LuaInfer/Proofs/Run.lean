import LuaInfer.Proofs.Outcome
import LuaInfer.Session.Query
/-!
# Runs that return

An operation of a session returns or faults. The lemmas here are about runs that return: `bind_ok`
takes a run of two operations apart, and a loop over a list, or over the members of a node, keeps what
each of its rounds keeps.
-/

namespace LuaInfer

namespace Resolve

variable {α β σ : Type} {s s' : Session}

theorem bind_ok {m : Resolve α} {f : α → Resolve β} {b : β} (h : (m >>= f).run s = .ok (b, s')) :
    ∃ a t, m.run s = .ok (a, t) ∧ (f a).run t = .ok (b, s') := by
  rw [StateT.run_bind] at h
  obtain ⟨⟨a, t⟩, hm, hf⟩ := Except.bind_ok h
  exact ⟨a, t, hm, hf⟩

/-- Two operations that return one after the other return together. -/
theorem run_bind_of {m : Resolve α} {f : α → Resolve β} {a : α} {t : Session} (h : m.run s = .ok (a, t)) :
    (m >>= f).run s = (f a).run t := by
  rw [StateT.run_bind, h]
  rfl

theorem pure_ok {a b : α} (h : (pure a : Resolve α).run s = .ok (b, s')) : b = a ∧ s' = s := by
  cases h
  exact ⟨rfl, rfl⟩

/-- A computation without a session leaves the session as it is. -/
theorem lift_ok {x : Except Fault α} {a : α} (h : (liftM x : Resolve α).run s = .ok (a, s')) :
    x = .ok a ∧ s' = s := by
  cases x with
  | error e => cases h
  | ok b => cases h; exact ⟨rfl, rfl⟩

theorem mergeNode_ok {target : SlotKey} {node : Option TypeNode} {u : Unit}
    (h : (mergeNode target node).run s = .ok (u, s')) : s' = s.setNode target node := by
  cases h
  rfl

/-- What one round keeps, a loop over a list keeps. -/
theorem forM_ok {f : α → Resolve Unit} (I : Session → Prop) {xs : List α} {u : Unit}
    (hstep : ∀ x ∈ xs, ∀ t t', I t → (f x).run t = .ok ((), t') → I t') (hs : I s)
    (h : (xs.forM f).run s = .ok (u, s')) : I s' := by
  induction xs generalizing s with
  | nil => cases h; exact hs
  | cons x xs ih =>
    obtain ⟨_, t, hx, h⟩ := bind_ok h
    exact ih (fun y hy => hstep y (by simp [hy])) (hstep x (by simp) _ _ hs hx) h

/-- What a round establishes and later rounds keep, a loop over a list establishes. -/
theorem forM_ok_of_mem {f : α → Resolve Unit} (I P : Session → Prop) {xs : List α} {x : α} {u : Unit} (hx : x ∈ xs)
    (hstep : ∀ y ∈ xs, ∀ t t', I t → (f y).run t = .ok ((), t') → I t' ∧ (P t → P t'))
    (hP : ∀ t t', I t → (f x).run t = .ok ((), t') → P t') (hs : I s) (h : (xs.forM f).run s = .ok (u, s')) : P s' := by
  induction xs generalizing s with
  | nil => cases hx
  | cons y ys ih =>
    obtain ⟨_, t, hy, hys⟩ := bind_ok h
    have ht := (hstep y (by simp) _ _ hs hy).1
    have hrest : ∀ z ∈ ys, ∀ t t', I t → (f z).run t = .ok ((), t') → I t' ∧ (P t → P t') :=
      fun z hz => hstep z (by simp [hz])
    rcases List.mem_cons.1 hx with rfl | hx
    · refine (forM_ok (fun t => I t ∧ P t) (fun z hz t t' ht hr => ?_) ⟨ht, hP _ _ hs hy⟩ hys).2
      exact ⟨(hrest z hz t t' ht.1 hr).1, (hrest z hz t t' ht.1 hr).2 ht.2⟩
    · exact ih hx hrest ht hys

/-- What one round keeps, a loop that gathers answers keeps, and each answer is as its round left it if no later
round changes that. -/
theorem mapM_ok {f : α → Resolve β} (I : Session → Prop) (Q : Session → β → Prop) {xs : List α} {ys : List β}
    (hstep : ∀ x ∈ xs, ∀ t b t', I t → (f x).run t = .ok (b, t') → I t' ∧ Q t' b ∧ ∀ c, Q t c → Q t' c) (hs : I s)
    (h : (xs.mapM f).run s = .ok (ys, s')) : I s' ∧ (∀ y ∈ ys, Q s' y) ∧ ∀ c, Q s c → Q s' c := by
  induction xs generalizing s ys with
  | nil =>
    obtain ⟨rfl, rfl⟩ := pure_ok (by simpa using h)
    exact ⟨hs, by simp⟩
  | cons x xs ih =>
    rw [List.mapM_cons] at h
    obtain ⟨b, t, hx, h⟩ := bind_ok h
    obtain ⟨bs, t', hxs, h⟩ := bind_ok h
    obtain ⟨rfl, rfl⟩ := pure_ok h
    obtain ⟨ht, hb, hkeep⟩ := hstep x (by simp) _ _ _ hs hx
    obtain ⟨hI, hbs, hkeep'⟩ := ih (fun y hy => hstep y (by simp [hy])) ht hxs
    exact ⟨hI, by simpa using ⟨hkeep' b hb, hbs⟩, fun c hc => hkeep' c (hkeep c hc)⟩

/-- What one round keeps, a loop over the members of a node keeps. A round may rely on its member being
one of the node at the time it starts. -/
theorem foldMembers_ok {f : σ → TypeNode → Resolve σ} (I : σ → Session → Prop) {fuel position : Nat}
    {node : Option TypeNode} {acc acc' : σ}
    (hstep : ∀ n a t a' t', n ∈ t.cache.members node → I a t → (f a n).run t = .ok (a', t') → I a' t')
    (hs : I acc s) (h : (foldMembers f fuel ⟨node, position⟩ acc).run s = .ok (acc', s')) : I acc' s' := by
  induction fuel generalizing position acc s with
  | zero => cases h
  | succ fuel ih =>
    rw [foldMembers] at h
    obtain ⟨_, _, hg, h⟩ := bind_ok h
    cases hg
    cases hn : (s.cache.members node)[position]? with
    | none =>
      simp only [Cursor.next?, hn, Option.map_none] at h
      obtain ⟨rfl, rfl⟩ := pure_ok h
      exact hs
    | some n =>
      simp only [Cursor.next?, hn, Option.map_some] at h
      obtain ⟨a, t, hf, h⟩ := bind_ok h
      exact ih (hstep n _ _ _ _ (List.mem_of_getElem? hn) hs hf) h

end Resolve

end LuaInfer
