import LuaInfer.Proofs.Ownership
/-!
# Unions are ordered sets

Unions are made, added to, and thrown away all at once; any node may be named on the way, also a union that does not
exist, or the union that is added to. `UnionArena.Change.flat` and `UnionArena.Change.nodup` say what one operation
keeps: no member is a union and none stands twice. `UnionArena.reached_algebra` is about all arenas that operations reach. On
them a union that is made, or added to, has exactly what was missing at its end, the set for look-up agrees with the list, and
what an operation answers is what the lists say.
-/

namespace LuaInfer.UnionArena

variable {a b : UnionArena} {u v : UnionId} {m n : TypeNode} {o : Option SlotKey}

/-! ## What adding does -/

/-- Adding tells whether something was missing. -/
theorem insert_new (h : u.index < a.size) : (a.insert u n).1 = true ↔ ∃ m ∈ a.flatten n, m ∉ a.members u := by
  rcases a.insert_cases u n with ⟨hins, hself⟩ | ⟨data, hdata, -, hins⟩
  · rw [hins, hself h]
    simp [flatten]
  · rw [hins, data.pushAll_new, members_of_data hdata]

theorem insert_of_size_le (h : a.size ≤ u.index) : a.insert u n = (false, a) := by
  rcases a.insert_cases u n with ⟨hins, -⟩ | ⟨data, hdata, -, -⟩
  · exact hins
  · exact absurd (Array.getElem?_eq_some_iff.1 hdata).1 (Nat.not_lt.2 h)

/-- To look a union up is to look its members up, since none of them is a union. -/
theorem contains_union (h : ∀ u, ∀ n ∈ a.members u, n.isUnion = false) :
    a.contains u (.union v) = (a.members v).all (a.contains u) := by
  have hmember : ∀ n ∈ a.members v, a.contains u n = a.sees u n := by
    intro n hn
    cases n with
    | union w => exact absurd (h v _ hn) (by simp [TypeNode.isUnion])
    | leaf _ | global _ | generic _ => simp [contains, flatten]
  rw [Bool.eq_iff_iff, contains, List.all_eq_true, List.all_eq_true]
  exact forall₂_congr fun n hn => by rw [hmember n hn]

/-! ## Operations -/

/-- An operation that forgets nothing. -/
inductive Change : UnionArena → UnionArena → Prop
  | make {a : UnionArena} (o : Option SlotKey) (m n : TypeNode) : Change a (a.make o m n).2
  | insert {a : UnionArena} (u : UnionId) (n : TypeNode) : Change a (a.insert u n).2

/-- The arenas that operations reach. -/
inductive Reached : UnionArena → Prop
  | empty : Reached .empty
  | change {a b : UnionArena} : Reached a → Change a b → Reached b
  | clear {a : UnionArena} : Reached a → Reached .empty

/-- What holds of the empty arena and is kept by operations holds of all arenas reached. -/
theorem Reached.invariant {P : UnionArena → Prop} (hempty : P .empty) (hchange : ∀ a b, P a → Change a b → P b)
    (h : Reached a) : P a := by
  induction h with
  | empty | clear => exact hempty
  | change _ hc ih => exact hchange _ _ ih hc

theorem Change.nodup (h : Change a b) (ha : ∀ u, (a.members u).Nodup) : ∀ u, (b.members u).Nodup := by
  cases h with
  | make o m n => exact fun u => nodup_members_make ha
  | insert u n => exact fun v => nodup_members_add ha

theorem Change.flat (h : Change a b) (ha : ∀ u, ∀ n ∈ a.members u, n.isUnion = false) :
    ∀ u, ∀ n ∈ b.members u, n.isUnion = false := by
  cases h with
  | make o m n => exact fun u => flat_make ha
  | insert u n => exact fun v => flat_add ha

theorem Change.size_le (h : Change a b) : a.size ≤ b.size := by
  cases h with
  | make o m n => simp
  | insert u n => exact Nat.le_of_eq size_add.symm

/-- A union that exists only gets longer. -/
theorem Change.isPrefix (h : Change a b) (u : UnionId) : a.members u <+: b.members u := by
  cases h with
  | make o m n => exact isPrefix_make
  | insert v n => exact isPrefix_add

theorem Reached.nodup (h : Reached a) : ∀ u, (a.members u).Nodup :=
  h.invariant (fun u => by rw [members_of_size_le (Nat.zero_le _)]; exact List.nodup_nil) fun _ _ ha hc => hc.nodup ha

theorem Reached.flat (h : Reached a) : ∀ u, ∀ n ∈ a.members u, n.isUnion = false :=
  h.invariant (fun _ _ hn => absurd (lt_of_mem hn) (Nat.not_lt_zero _)) fun _ _ ha hc => hc.flat ha

/-- In every arena reached, no union has a union as a member or a member twice, and its set of members has the members
of its list. A union that is made has what its two nodes stood for, and a union that is added to gets what was missing, in its
order, while all others stay as they are; adding tells whether there was something missing, which is whether the union
did not contain it. Until all unions are thrown away, they only get longer. -/
theorem reached_algebra (h : Reached a) :
    (∀ u, (a.members u).Nodup ∧ (∀ n ∈ a.members u, n.isUnion = false) ∧
      ∀ n, a.sees u n = true ↔ n ∈ a.members u) ∧
    (∀ o m n, (a.make o m n).1 = ⟨a.size⟩ ∧
      (a.make o m n).2.members ⟨a.size⟩ = a.flatten m ++ (a.flatten n).filter (· ∉ a.flatten m) ∧
      ∀ i < a.size, (a.make o m n).2.unions[i]? = a.unions[i]?) ∧
    (∀ u n, u.index < a.size →
      (a.insert u n).2.members u = a.members u ++ (a.flatten n).filter (· ∉ a.members u) ∧
      ((a.insert u n).1 = true ↔ (a.insert u n).2.members u ≠ a.members u) ∧
      ((a.insert u n).1 = true ↔ a.contains u n = false) ∧
      (∀ i ≠ u.index, (a.insert u n).2.unions[i]? = a.unions[i]?) ∧
      (a.contains u n = true ↔ ∀ m ∈ a.flatten n, m ∈ a.members u)) ∧
    (∀ u v, a.contains u (.union v) = (a.members v).all (a.contains u)) ∧
    (∀ u n, a.size ≤ u.index → a.insert u n = (false, a)) ∧
    ∀ b, Relation.ReflTransGen Change a b → a.size ≤ b.size ∧ ∀ u, a.members u <+: b.members u := by
  have hflatten : ∀ n, (a.flatten n).Nodup := fun n => nodup_flatten h.nodup
  refine ⟨fun u => ⟨h.nodup u, h.flat u, fun n => sees_iff⟩, fun o m n => ⟨rfl, ?_, fun i => getElem?_make⟩,
    fun u n hu => ?_, fun u v => contains_union h.flat, fun u n => insert_of_size_le, fun b hb => ?_⟩
  · rw [members_make_self, Distinct.nil_append (hflatten m), Distinct.append_eq_filter (hflatten n)]
  · have hmembers : (a.insert u n).2.members u = a.members u ++ (a.flatten n).filter (· ∉ a.members u) :=
      (members_add_self hu).trans (Distinct.append_eq_filter (hflatten n))
    have hcontains : (a.insert u n).1 = true ↔ a.contains u n = false := by
      rw [insert_new hu, ← Bool.not_eq_true, contains_iff]
      simp
    refine ⟨hmembers, ?_, hcontains, fun i hi => getElem?_add_of_ne hi.symm, contains_iff⟩
    rw [insert_new hu, hmembers, Ne, List.append_right_eq_self, List.filter_eq_nil_iff]
    simp
  · induction hb with
    | refl => exact ⟨Nat.le_refl _, fun u => List.prefix_rfl⟩
    | tail _ hc ih => exact ⟨ih.1.trans hc.size_le, fun u => (ih.2 u).trans (hc.isPrefix u)⟩

/-- A union of two leaves that was added to itself, and a union of the two and of one that does not exist. -/
def sampleSelf : UnionArena :=
  (((empty.make none (.leaf ⟨0⟩) (.leaf ⟨1⟩)).2.insert ⟨0⟩ (.union ⟨0⟩)).2.make none (.union ⟨0⟩) (.union ⟨7⟩)).2

theorem reached_algebra_self : Reached sampleSelf ∧ sampleSelf.size = 2 ∧
    (sampleSelf.insert ⟨1⟩ (.leaf ⟨2⟩)).2.members ⟨1⟩ = [.leaf ⟨0⟩, .leaf ⟨1⟩, .leaf ⟨2⟩] ∧
    (sampleSelf.insert ⟨1⟩ (.leaf ⟨2⟩)).2.unions[0]? = sampleSelf.unions[0]? ∧
    (sampleSelf.insert ⟨1⟩ (.union ⟨0⟩)).1 = false := by
  have hreached : Reached sampleSelf := ((Reached.empty.change (.make _ _ _)).change (.insert _ _)).change (.make _ _ _)
  obtain ⟨-, -, hinsert, -⟩ := reached_algebra hreached
  have hlt : (⟨1⟩ : UnionId).index < sampleSelf.size := by decide
  obtain ⟨hmembers, -, -, hothers, -⟩ := hinsert ⟨1⟩ (.leaf ⟨2⟩) hlt
  obtain ⟨-, -, hcontains, -⟩ := hinsert ⟨1⟩ (.union ⟨0⟩) hlt
  refine ⟨hreached, by decide, hmembers.trans (by decide), hothers 0 (by decide), ?_⟩
  rw [← Bool.not_eq_true, hcontains]
  decide

end LuaInfer.UnionArena
