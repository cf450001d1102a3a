import LuaInfer.Proofs.Ancestry
/-!
# A guard keeps its books, however it is used

A guard is entered and left in any order, also where it should not be: a key that is not being visited is left, and the
misuse that this reports is ignored. `Guard.run` records what each use came to. `Guard.Consistent` says how a guard
and the record of its uses belong together, above all that the keys being visited are those that were entered and not left
since (`Guard.unleft`). One use keeps it (`Guard.Consistent.step`), so `Guard.run_consistent` can read off the record what a
guard does next.
-/

namespace LuaInfer.Guard

variable {κ : Type}

/-! ## Records -/

/-- A use of a guard. -/
inductive Use (κ : Type) where
  | enter (key : κ)
  | leave (key : κ)

/-- What a use came to. -/
inductive Event (κ : Type) where
  /-- An attempt to enter a key. -/
  | tried (key : κ) (entry : Entry)
  /-- A key was left. -/
  | left (key : κ)
  /-- A key was left that was not being visited. -/
  | misused (key : κ) (cause : Misuse)
deriving DecidableEq

/-- Whether a use was an attempt. -/
def Event.isAttempt : Event κ → Bool
  | tried .. => true
  | _ => false

/-- The key that was entered, if one was. -/
def Event.entered? : Event κ → Option κ
  | tried key .entered => some key
  | _ => none

theorem entered?_eq_some {e : Event κ} {k : κ} : e.entered? = some k ↔ e = .tried k .entered := by
  cases e with
  | tried key entry => cases entry <;> simp [Event.entered?]
  | left | misused => simp [Event.entered?]

variable [DecidableEq κ] {g g' : Guard κ} {limits : GuardLimits} {k : κ}

/-- The keys that were entered and not left since, in the order of entry. -/
def unleft : List (Event κ) → List κ
  | [] => []
  | e :: es => (e.entered?.filter fun key => .left key ∉ es).toList ++ unleft es

/-- One use. A misuse is noticed after the key was taken out, and before the depth is counted down. -/
def step (g : Guard κ) : Use κ → Event κ × Guard κ
  | .enter key => (.tried key (g.enter key).1, (g.enter key).2)
  | .leave key =>
    match g.leave key with
    | .ok g' => (.left key, g')
    | .error cause => (.misused key cause, { g with visiting := g.visiting.erase key })

/-- The record of the uses of a fresh guard, and the guard after them. -/
def run (limits : GuardLimits) (us : List (Use κ)) : List (Event κ) × Guard κ :=
  us.foldl (fun (es, g) u => (es ++ [(g.step u).1], (g.step u).2)) ([], { limits })

/-! ### Keys that were not left -/

variable {e : Event κ} {es : List (Event κ)}

/-- An event that is recorded takes out the key that it left, and adds the one that it entered. -/
theorem unleft_concat (es : List (Event κ)) (e : Event κ) :
    unleft (es ++ [e]) = (unleft es).filter (fun key => e ≠ .left key) ++ e.entered?.toList := by
  induction es with
  | nil => cases h : e.entered? <;> simp [unleft, h]
  | cons e' es ih =>
    rw [List.cons_append, unleft, unleft, ih, List.filter_append, List.append_assoc]
    congr 1
    cases e'.entered? with
    | none => rfl
    | some key =>
      by_cases hleft : .left key ∈ es
      · simp [hleft, Option.filter]
      · by_cases he : e = .left key <;> simp [hleft, he, Option.filter, eq_comm]

theorem unleft_concat_of_not_left (he : ∀ key, e ≠ .left key) (es : List (Event κ)) :
    unleft (es ++ [e]) = unleft es ++ e.entered?.toList := by
  rw [unleft_concat, List.filter_eq_self.2 fun key _ => by simpa using he key]

theorem mem_unleft_cons : k ∈ unleft (e :: es) ↔ (e = .tried k .entered ∧ .left k ∉ es) ∨ k ∈ unleft es := by
  rw [unleft, List.mem_append, Option.mem_toList, Option.filter_eq_some_iff, entered?_eq_some, decide_eq_true_eq]

theorem mem_unleft_append (before : List (Event κ)) (h : k ∈ unleft es) : k ∈ unleft (before ++ es) := by
  induction before with
  | nil => exact h
  | cons e before ih => exact mem_unleft_cons.2 (.inr ih)

/-- A key was not left if its last entry is followed by no leave. -/
theorem mem_unleft : k ∈ unleft es ↔ ∃ before after, es = before ++ .tried k .entered :: after ∧
    .tried k .entered ∉ after ∧ .left k ∉ after := by
  constructor
  · intro h
    induction es with
    | nil => cases h
    | cons e es ih =>
      by_cases hk : k ∈ unleft es
      · obtain ⟨before, after, rfl, hafter⟩ := ih hk
        exact ⟨e :: before, after, rfl, hafter⟩
      · obtain ⟨rfl, hleft⟩ := (mem_unleft_cons.1 h).resolve_right hk
        refine ⟨[], es, rfl, fun hmem => hk ?_, hleft⟩
        -- a later entry of the key would not have been left either
        obtain ⟨before, after, rfl⟩ := List.append_of_mem hmem
        exact mem_unleft_append before (mem_unleft_cons.2 (.inl ⟨rfl, fun h => hleft (by simp [h])⟩))
  · rintro ⟨before, after, rfl, -, hleft⟩
    exact mem_unleft_append before (mem_unleft_cons.2 (.inl ⟨rfl, hleft⟩))

/-! ## One use -/

theorem enter_entered_iff (g : Guard κ) (key : κ) : (g.enter key).1 = .entered ↔
    min (g.attempts + 1) attemptCap ≤ g.limits.maxAttempts.toNat ∧ g.depth < g.limits.maxDepth.toNat ∧
      key ∉ g.visiting := by
  unfold enter
  dsimp only
  split
  · next hmany => exact iff_of_false (by simp) fun h => absurd h.1 (Nat.not_le.2 hmany)
  · next hmany =>
    split
    · next hdeep => exact iff_of_false (by simp) fun h => absurd h.2.1 (Nat.not_lt.2 hdeep)
    · next hdeep =>
      split
      · next hmem => exact iff_of_false (by simp) fun h => h.2.2 hmem
      · next hmem => exact iff_of_true rfl ⟨Nat.not_lt.1 hmany, Nat.not_le.1 hdeep, hmem⟩

/-- An attempt that is one too many leaves the count past the limit. -/
theorem enter_attemptsExceeded (h : (g.enter k).1 = .attemptsExceeded) : ¬ (g.enter k).2.Within := by
  unfold enter at h ⊢
  dsimp only at h ⊢
  split at h
  · next hmany =>
    rw [if_pos hmany]
    exact Nat.not_le.2 hmany
  · split at h
    · cases h
    · split at h <;> cases h

theorem step_leave_of_mem (h : k ∈ g.visiting) :
    g.step (.leave k) = (.left k, { g with visiting := g.visiting.erase k, depth := g.depth - 1 }) := by
  simp only [step, leave, if_pos h]

/-- A misuse changes nothing: the key that is taken out was not there. -/
theorem step_leave_of_not_mem (h : k ∉ g.visiting) : g.step (.leave k) = (.misused k .absentKey, g) := by
  simp only [step, leave, if_neg h, List.erase_of_not_mem h]

/-! ## A guard and its record -/

/-- A guard with these limits is what the recorded uses made of it. -/
structure Consistent (limits : GuardLimits) (es : List (Event κ)) (g : Guard κ) : Prop where
  limits_eq : g.limits = limits
  /-- The keys being visited are those not left, the last entry first. -/
  visiting : g.visiting = (unleft es).reverse
  nodup : g.visiting.Nodup
  depth : g.depth = g.visiting.length
  bounded : g.depth ≤ limits.maxDepth.toNat
  attempts : g.attempts = min (es.countP Event.isAttempt) attemptCap
  /-- Once there was an attempt too many, the count is past the limit. -/
  exceeded : ∀ k, .tried k .attemptsExceeded ∈ es → ¬ g.Within
  /-- And no key is entered any more. -/
  final : es.Pairwise fun e e' => ∀ k k', e = .tried k .attemptsExceeded → e' ≠ .tried k' .entered

theorem consistent_start (limits : GuardLimits) : Consistent limits [] ({ limits } : Guard κ) where
  limits_eq := rfl
  visiting := rfl
  nodup := List.nodup_nil
  depth := rfl
  bounded := Nat.zero_le _
  attempts := rfl
  exceeded _ h := by cases h
  final := .nil

namespace Consistent

theorem attempts_le (h : Consistent limits es g) : g.attempts ≤ attemptCap := by
  rw [h.attempts]
  exact Nat.min_le_right _ _

theorem attempts_enter (h : Consistent limits es g) (k : κ) :
    (g.enter k).2.attempts = min ((es ++ [Event.tried k (g.enter k).1]).countP Event.isAttempt) attemptCap := by
  rw [Guard.attempts_enter, h.attempts, List.countP_append, List.countP_singleton, Event.isAttempt, if_pos rfl]
  omega

/-- The count of attempts does not go back below the limit. -/
theorem not_within_enter (h : Consistent limits es g) (hw : ¬ g.Within) (k : κ) : ¬ (g.enter k).2.Within := by
  have hle := h.attempts_le
  have hlimits : (g.enter k).2.limits = g.limits := by
    rcases g.enter_cases k with ⟨g', he, -, -, hl, -⟩ | ⟨e, g', he, -, hl, -⟩ <;> rw [he] <;> exact hl
  unfold Within at hw ⊢
  rw [hlimits, Guard.attempts_enter]
  omega

theorem within_of_entered (h : Consistent limits es g) (he : (g.enter k).1 = .entered) : g.Within := by
  have hle := h.attempts_le
  have hmin := ((enter_entered_iff g k).1 he).1
  unfold Within
  omega

theorem exceeded_concat (h : Consistent limits es g) (hkeep : ¬ g.Within → ¬ g'.Within)
    (hnew : ∀ k, e = .tried k .attemptsExceeded → ¬ g'.Within) :
    ∀ k, .tried k .attemptsExceeded ∈ es ++ [e] → ¬ g'.Within := by
  intro k hk
  rcases List.mem_append.1 hk with hk | hk
  · exact hkeep (h.exceeded k hk)
  · exact hnew k (List.mem_singleton.1 hk).symm

theorem final_concat (h : Consistent limits es g) (hnew : ∀ k, e = .tried k .entered → g.Within) :
    (es ++ [e]).Pairwise fun e e' => ∀ k k', e = .tried k .attemptsExceeded → e' ≠ .tried k' .entered := by
  refine List.pairwise_append.2 ⟨h.final, List.pairwise_singleton _ _, fun e₁ he₁ e₂ he₂ k k' hk hk' => ?_⟩
  rw [List.mem_singleton.1 he₂] at hk'
  exact h.exceeded k (hk ▸ he₁) (hnew k' hk')

theorem enter (h : Consistent limits es g) (k : κ) :
    Consistent limits (es ++ [.tried k (g.enter k).1]) (g.enter k).2 := by
  have hattempts := h.attempts_enter k
  have hexceeded := h.exceeded_concat (e := .tried k (g.enter k).1) (fun hw => h.not_within_enter hw k)
    fun k' hk' => enter_attemptsExceeded (Event.tried.inj hk').2
  have hfinal := h.final_concat (e := .tried k (g.enter k).1)
    fun k' hk' => h.within_of_entered (Event.tried.inj hk').2
  have hunleft := unleft_concat_of_not_left (e := Event.tried k (g.enter k).1) (by simp) es
  rcases g.enter_cases k with ⟨g', he, hnew, hlt, hl, hv, hd⟩ | ⟨entry, g', he, hne, hl, hv, hd⟩ <;>
    rw [he] at hattempts hexceeded hfinal hunleft ⊢
  · refine ⟨hl.trans h.limits_eq, ?_, ?_, ?_, ?_, hattempts, hexceeded, hfinal⟩
    · rw [hv, h.visiting, hunleft]
      simp [Event.entered?]
    · rw [hv]
      exact List.nodup_cons.2 ⟨hnew, h.nodup⟩
    · rw [hv, hd, h.depth, List.length_cons]
    · rw [hd, ← h.limits_eq]
      exact hlt
  · have hnone : (Event.tried k entry).entered? = none := by
      cases entry <;> first | rfl | exact absurd rfl hne
    refine ⟨hl.trans h.limits_eq, ?_, ?_, ?_, ?_, hattempts, hexceeded, hfinal⟩
    · rw [hv, h.visiting, hunleft, hnone, Option.toList_none, List.append_nil]
    · rw [hv]
      exact h.nodup
    · rw [hv, hd, h.depth]
    · rw [hd]
      exact h.bounded

theorem leave (h : Consistent limits es g) (hk : k ∈ g.visiting) :
    Consistent limits (es ++ [.left k]) { g with visiting := g.visiting.erase k, depth := g.depth - 1 } where
  limits_eq := h.limits_eq
  visiting := by
    rw [unleft_concat, h.nodup.erase_eq_filter, h.visiting, List.filter_reverse]
    simp [Event.entered?, bne, beq_eq_decide, eq_comm (a := k)]
  nodup := h.nodup.erase k
  depth := by
    rw [h.depth, List.length_erase_of_mem hk]
  bounded := (Nat.sub_le _ _).trans h.bounded
  attempts := by
    rw [List.countP_append, h.attempts]
    rfl
  exceeded := h.exceeded_concat id (by simp)
  final := h.final_concat (by simp)

theorem misuse (h : Consistent limits es g) (k : κ) (cause : Misuse) :
    Consistent limits (es ++ [.misused k cause]) g where
  limits_eq := h.limits_eq
  visiting := by
    rw [unleft_concat_of_not_left (by simp), h.visiting]
    simp [Event.entered?]
  nodup := h.nodup
  depth := h.depth
  bounded := h.bounded
  attempts := by
    rw [List.countP_append, h.attempts]
    rfl
  exceeded := h.exceeded_concat id (by simp)
  final := h.final_concat (by simp)

/-- One use keeps a guard consistent with its record. -/
theorem step (h : Consistent limits es g) (u : Use κ) : Consistent limits (es ++ [(g.step u).1]) (g.step u).2 := by
  cases u with
  | enter k => exact h.enter k
  | leave k =>
    by_cases hk : k ∈ g.visiting
    · rw [step_leave_of_mem hk]
      exact h.leave hk
    · rw [step_leave_of_not_mem hk]
      exact h.misuse k .absentKey

/-- An attempt succeeds while there were fewer attempts than the limit, or the limit is the number at which the count
stays, at a depth below the limit and for a key that is not being visited. -/
theorem enter_iff (h : Consistent limits es g) (k : κ) : (g.enter k).1 = .entered ↔
    (es.countP Event.isAttempt < limits.maxAttempts.toNat ∨ limits.maxAttempts = 4294967295) ∧
      g.depth < limits.maxDepth.toNat ∧ k ∉ g.visiting := by
  have hmax : limits.maxAttempts.toNat < UInt32.size := limits.maxAttempts.toNat_lt
  have hcap : limits.maxAttempts = 4294967295 ↔ limits.maxAttempts.toNat = attemptCap := UInt32.toNat_inj.symm
  rw [enter_entered_iff, h.limits_eq, h.attempts, hcap]
  refine and_congr_left' ?_
  unfold attemptCap
  omega

theorem drop_eq (h : Consistent limits es g) :
    g.drop = if g.visiting = [] then .ok () else .error (.abandoned (unleft es).length) := by
  have hlength : g.visiting.length = (unleft es).length := by
    rw [h.visiting, List.length_reverse]
  rw [drop, hlength]
  simp only [List.isEmpty_iff]

end Consistent

theorem consistent_run (limits : GuardLimits) (us : List (Use κ)) :
    Consistent limits (run limits us).1 (run limits us).2 := by
  induction us using List.reverseRecOn with
  | nil => exact consistent_start limits
  | append_singleton us u ih =>
    rw [run, List.foldl_concat]
    exact ih.step u

/-- However a guard is used, its depth is the number of keys being visited, within the limit, and these are the keys whose
last entry was followed by no leave. What an attempt comes to depends on the number of attempts before it, on the depth and on
the keys being visited; after an attempt too many no key is entered any more. A misuse changes nothing. A guard that is given
up reports how many entries were not left, if there are any. -/
theorem run_consistent (limits : GuardLimits) (us : List (Use κ)) : ∃ es g, run limits us = (es, g) ∧
    (g.visiting.Nodup ∧ g.depth = g.visiting.length ∧ g.depth ≤ limits.maxDepth.toNat) ∧
    (∀ k, k ∈ g.visiting ↔ ∃ before after, es = before ++ .tried k .entered :: after ∧
      .tried k .entered ∉ after ∧ .left k ∉ after) ∧
    (∀ k, (g.enter k).1 = .entered ↔
      (es.countP Event.isAttempt < limits.maxAttempts.toNat ∨ limits.maxAttempts = 4294967295) ∧
        g.depth < limits.maxDepth.toNat ∧ k ∉ g.visiting) ∧
    (∀ before k after, es = before ++ .tried k .attemptsExceeded :: after → ∀ k', .tried k' .entered ∉ after) ∧
    (∀ k ∈ g.visiting, (g.step (.leave k)).1 = .left k) ∧
    (∀ k, k ∉ g.visiting → g.step (.leave k) = (.misused k .absentKey, g)) ∧
    g.drop = if g.visiting = [] then .ok () else .error (.abandoned (unleft es).length) := by
  have h := consistent_run limits us
  refine ⟨(run limits us).1, (run limits us).2, rfl, ⟨h.nodup, h.depth, h.bounded⟩, fun k => ?_, h.enter_iff,
    fun before k after hes k' hk' => ?_, fun k hk => ?_, fun k => step_leave_of_not_mem, h.drop_eq⟩
  · rw [h.visiting, List.mem_reverse, mem_unleft]
  · have hfinal := h.final
    rw [hes, List.pairwise_append, List.pairwise_cons] at hfinal
    exact hfinal.2.1.1 _ hk' k k' rfl rfl
  · rw [step_leave_of_mem hk]

/-- A key that is left without having been entered, a cycle, and a limit of each kind. -/
theorem run_consistent_misuse : ∃ g : Guard Nat,
    run ⟨2, 4⟩ [.enter 1, .leave 7, .enter 1, .enter 2, .enter 3, .enter 4] =
      ([.tried 1 .entered, .misused 7 .absentKey, .tried 1 .cycle, .tried 2 .entered, .tried 3 .depthExceeded,
        .tried 4 .attemptsExceeded], g) ∧
    2 ∈ g.visiting ∧ 3 ∉ g.visiting ∧ g.depth = 2 ∧ g.drop = .error (.abandoned 2) := by
  obtain ⟨es, g, hrun, ⟨-, hdepth, -⟩, hmem, -, -, -, -, hdrop⟩ :=
    run_consistent ⟨2, 4⟩ [.enter 1, .leave 7, .enter 1, .enter 2, .enter 3, .enter 4]
  have hes : es = [.tried 1 .entered, .misused 7 .absentKey, .tried 1 .cycle, .tried 2 .entered,
      .tried 3 .depthExceeded, .tried 4 .attemptsExceeded] := (congrArg Prod.fst hrun).symm
  have hvisiting : [2, 1] = g.visiting := congrArg (fun r => r.2.visiting) hrun
  subst hes
  rw [← hvisiting] at hdepth
  refine ⟨g, hrun, ?_, ?_, hdepth, ?_⟩
  · exact (hmem 2).2 ⟨[.tried 1 .entered, .misused 7 .absentKey, .tried 1 .cycle],
      [.tried 3 .depthExceeded, .tried 4 .attemptsExceeded], rfl, by decide, by decide⟩
  · rw [← hvisiting]
    decide
  · rw [hdrop, ← hvisiting]
    decide

end LuaInfer.Guard
